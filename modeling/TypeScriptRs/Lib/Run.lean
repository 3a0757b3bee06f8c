import Mathlib.Data.List.Basic
import Mathlib.Logic.Relation

/-! Runs of a step function with outputs, simulations, and clients in any order. -/
namespace Run

variable {S T A O : Type*} {step : S → A → S × O} {spec : T → A → T × O}
  {ok : S → A → Prop} {rel : S → T → Prop} {inv : S → Prop}
variable {s : S} {as : List A} {t : T}

def run (step : S → A → S × O) : S → List A → S × List O
  | s, [] => (s, [])
  | s, a :: as => ((run step (step s a).1 as).1, (step s a).2 :: (run step (step s a).1 as).2)

/-- Every step of the run meets `ok` in the state it is taken from. -/
def Along (step : S → A → S × O) (ok : S → A → Prop) : S → List A → Prop
  | _, [] => True
  | s, a :: as => ok s a ∧ Along step ok (step s a).1 as

theorem Along.take (along : Along step ok s as) (n : Nat) : Along step ok s (as.take n) := by
  induction as generalizing s n with
  | nil => simpa using along
  | cons a as ih =>
    cases n with
    | zero => trivial
    | succ n => exact ⟨along.1, ih along.2 n⟩

/-- Related states stay related and answer alike, over a step that meets `ok`. -/
def Simulates (step : S → A → S × O) (spec : T → A → T × O) (ok : S → A → Prop)
    (rel : S → T → Prop) : Prop :=
  ∀ s t a, rel s t → ok s a → rel (step s a).1 (spec t a).1 ∧ (step s a).2 = (spec t a).2

theorem Simulates.run (h : Simulates step spec ok rel) (start : rel s t) (along : Along step ok s as) :
    rel (run step s as).1 (run spec t as).1 ∧ (run step s as).2 = (run spec t as).2 := by
  induction as generalizing s t with
  | nil => exact ⟨start, rfl⟩
  | cons a as ih =>
    obtain ⟨next, output⟩ := h s t a start along.1
    obtain ⟨final, outputs⟩ := ih next along.2
    refine ⟨final, ?_⟩
    simp only [Run.run, output, outputs]

/-- When related states that still look the same after a step must have met `ok`, a run
that looks the same at every prefix has met it all along. -/
theorem Simulates.along (same : S → T → Prop) (h : Simulates step spec ok rel)
    (exact : ∀ s t a, rel s t → same (step s a).1 (spec t a).1 → ok s a) (start : rel s t)
    (looks : ∀ n, same (Run.run step s (as.take n)).1 (Run.run spec t (as.take n)).1) : Along step ok s as := by
  induction as generalizing s t with
  | nil => trivial
  | cons a as ih =>
    have first : ok s a := exact s t a start (looks 1)
    exact ⟨first, ih (h s t a start first).1 fun n => looks (n + 1)⟩

/-- When a step keeps `inv` exactly if it meets `ok`, a run whose every prefix ends in `inv` is a
run that meets `ok` all along. -/
theorem holds_iff_along (exact : ∀ s a, inv s → (inv (step s a).1 ↔ ok s a)) (start : inv s) :
    (∀ n, inv (Run.run step s (as.take n)).1) ↔ Along step ok s as := by
  induction as generalizing s with
  | nil => simpa [Along, Run.run] using start
  | cons a as ih =>
    constructor
    · intro holds
      have next : inv (step s a).1 := holds 1
      exact ⟨(exact s a start).mp next, (ih next).mp fun n => holds (n + 1)⟩
    rintro ⟨first, rest⟩ n
    have next : inv (step s a).1 := (exact s a start).mpr first
    cases n with
    | zero => exact start
    | succ n => exact (ih next).mpr rest n

end Run

namespace Interleaving

variable {State Action : Type} {step : State → Action → Option State} {ok ok' : State → Action → Prop}
variable {s s' : State} {actions : List Action}

/-- One step of some client, taken from a state in which it is allowed. -/
def Next (step : State → Action → Option State) (ok : State → Action → Prop) (s s' : State) : Prop :=
  ∃ a, ok s a ∧ step s a = some s'

/-- The states that runs lead to whose steps are all allowed where they are taken. -/
def Reaches (step : State → Action → Option State) (ok : State → Action → Prop) : State → State → Prop :=
  Relation.ReflTransGen (Next step ok)

theorem Reaches.keeps (inv : State → Prop) (run : Reaches step ok s s') (start : inv s)
    (each : ∀ s a s', inv s → ok s a → step s a = some s' → inv s') : inv s' := by
  induction run with
  | refl => exact start
  | tail _ last ih =>
    obtain ⟨a, allowed, taken⟩ := last
    exact each _ a _ ih allowed taken

def steps (step : State → Action → Option State) : State → List Action → Option State
  | s, [] => some s
  | s, a :: rest => (step s a).bind fun s' => steps step s' rest

theorem reaches_of_steps (taken : steps step s actions = some s') : Reaches step (fun _ _ => True) s s' := by
  induction actions generalizing s with
  | nil =>
    cases taken
    exact .refl
  | cons a rest ih =>
    obtain ⟨s₁, first, later⟩ := Option.bind_eq_some_iff.mp taken
    exact .head ⟨a, trivial, first⟩ (ih later)

def Allowed (step : State → Action → Option State) (ok : State → Action → Prop) : State → List Action → Prop
  | _, [] => True
  | s, a :: rest => ok s a ∧ ∀ s', step s a = some s' → Allowed step ok s' rest

theorem reaches_of_allowed (allowed : Allowed step ok s actions)
    (taken : steps step s actions = some s') : Reaches step ok s s' := by
  induction actions generalizing s with
  | nil =>
    cases taken
    exact .refl
  | cons a rest ih =>
    obtain ⟨s₁, first, later⟩ := Option.bind_eq_some_iff.mp taken
    exact .head ⟨a, allowed.1, first⟩ (ih (allowed.2 s₁ first) later)

end Interleaving
