import Mathlib.Data.List.Basic

/-! Routes through a graph, where nodes with one key are taken for the same. -/
namespace Routes

variable {N K : Type} {neighbors : N → List N} {free : N → Prop} {start : N} {key : N → K} {n : N} {path : List N}

inductive Route (neighbors : N → List N) (free : N → Prop) (start : N) : N → List N → Prop
  | start : free start → Route neighbors free start start [start]
  | step {parent child : N} {path : List N} : Route neighbors free start parent path → child ∈ neighbors parent → free child →
      Route neighbors free start child (child :: path)

def Shortest (neighbors : N → List N) (free : N → Prop) (start : N) (key : N → K) (n : N) (path : List N) : Prop :=
  Route neighbors free start n path ∧ ∀ n' path', key n' = key n → Route neighbors free start n' path' → path.length ≤ path'.length

/-- Nodes with the same key have neighbours with the same keys. -/
def Alike (neighbors : N → List N) (key : N → K) : Prop :=
  ∀ n n', key n = key n' → ∀ child ∈ neighbors n, ∃ child' ∈ neighbors n', key child' = key child

theorem Route.free_end (route : Route neighbors free start n path) : free n := by
  cases route with
  | start here => exact here
  | step _ _ here => exact here

theorem Shortest.length_eq {path' : List N} (shortest : Shortest neighbors free start key n path)
    (shortest' : Shortest neighbors free start key n path') : path.length = path'.length :=
  Nat.le_antisymm (shortest.2 n path' rfl shortest'.1) (shortest'.2 n path rfl shortest.1)

theorem Route.covered (covered : K → Prop) (alike : Alike neighbors key) (first : covered (key start))
    (closed : ∀ n, free n → covered (key n) → ∃ n', key n' = key n ∧ ∀ child ∈ neighbors n', covered (key child))
    (route : Route neighbors free start n path) : covered (key n) := by
  induction route with
  | start here => exact first
  | @step parent child path route listed here ih =>
    obtain ⟨n', same, children⟩ := closed parent route.free_end ih
    obtain ⟨child', listed', same'⟩ := alike parent n' same.symm child listed
    rw [← same']
    exact children child' listed'

end Routes
