import Mathlib.Data.List.Basic

/-! Programs that ask queries, with answers that may depend on a memory of those before. -/
namespace Queries

variable {Q A α β T : Type}

/-- A program that returns, aborts, runs out of its budget for recursion, or asks. -/
inductive Program (Q A α : Type) where
  | done (value : α)
  | abort (message : String)
  | exhausted
  | ask (query : Q) (next : A → Program Q A α)

inductive Ending (α : Type) where
  | done (value : α)
  | abort (message : String)
  | exhausted
  deriving DecidableEq

namespace Program

def bind (p : Program Q A α) (f : α → Program Q A β) : Program Q A β :=
  match p with
  | .done value => f value
  | .abort message => .abort message
  | .exhausted => .exhausted
  | .ask query next => .ask query fun answer => (next answer).bind f

instance : Monad (Program Q A) where
  pure := .done
  bind := bind

def query (q : Q) : Program Q A A := .ask q .done

def run (answer : Q → A) : Program Q A α → Ending α
  | .done value => .done value
  | .abort message => .abort message
  | .exhausted => .exhausted
  | .ask query next => (next (answer query)).run answer

def runWith (lookup : Q → T → A × T) : Program Q A α → T → Ending α × T
  | .done value, memory => (.done value, memory)
  | .abort message, memory => (.abort message, memory)
  | .exhausted, memory => (.exhausted, memory)
  | .ask query next, memory => (next (lookup query memory).1).runWith lookup (lookup query memory).2

/-- Each query to a memory that stays valid has the answer it has without one. -/
structure Transparent (answer : Q → A) (lookup : Q → T → A × T) (valid : T → Prop) : Prop where
  same : ∀ query memory, valid memory → (lookup query memory).1 = answer query
  keeps : ∀ query memory, valid memory → valid (lookup query memory).2

variable {answer : Q → A} {lookup : Q → T → A × T} {valid : T → Prop}

theorem runWith_valid (transparent : Transparent answer lookup valid) (p : Program Q A α) {memory : T} (start : valid memory) :
    (p.runWith lookup memory).1 = p.run answer ∧ valid (p.runWith lookup memory).2 := by
  induction p generalizing memory with
  | done value => exact ⟨rfl, start⟩
  | abort message => exact ⟨rfl, start⟩
  | exhausted => exact ⟨rfl, start⟩
  | ask query next ih =>
    rw [runWith, run, transparent.same query memory start]
    exact ih _ (transparent.keeps query memory start)

end Program

end Queries
