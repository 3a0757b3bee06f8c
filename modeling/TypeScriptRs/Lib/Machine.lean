import Mathlib.Tactic.Linarith

/-! Outcomes of code that can fail or abort, and signed 32-bit arithmetic as wrapped integers. -/
namespace Machine
open List

/-- A returned error and an abort are different outcomes of one call. -/
inductive Outcome (α : Type) where
  | ok (value : α)
  | err (message : String)
  | panic (message : String)
  deriving DecidableEq, Repr

namespace Outcome

def bind {α β : Type} (x : Outcome α) (f : α → Outcome β) : Outcome β :=
  match x with
  | .ok a => f a
  | .err m => .err m
  | .panic m => .panic m

@[simp] theorem bind_ok {α β : Type} (a : α) (f : α → Outcome β) : (ok a).bind f = f a := rfl

theorem bind_eq_ok {α β : Type} {x : Outcome α} {f : α → Outcome β} {b : β}
    (h : x.bind f = .ok b) : ∃ a, x = .ok a ∧ f a = .ok b := by
  cases x with
  | ok a => exact ⟨a, rfl, h⟩
  | err m => cases h
  | panic m => cases h

instance : Monad Outcome where
  pure := .ok
  bind := Outcome.bind

instance : LawfulMonad Outcome := LawfulMonad.mk' _
  (fun x => by cases x <;> rfl) (fun _ _ => rfl) (fun x _ _ => by cases x <;> rfl)

theorem monad_bind (x : Outcome α) (f : α → Outcome β) : (x >>= f) = x.bind f := rfl

theorem monad_pure (a : α) : (pure a : Outcome α) = .ok a := rfl

theorem mem_of_mapM {f : α → Outcome β} {list : List α} {image : List β} (returned : list.mapM f = .ok image) :
    ∀ b ∈ image, ∃ a ∈ list, f a = .ok b := by
  induction list generalizing image with
  | nil =>
    cases returned
    rintro b ⟨⟩
  | cons a list ih =>
    rw [mapM_cons] at returned
    obtain ⟨first, here, later⟩ := bind_eq_ok returned
    obtain ⟨rest, remaining, whole⟩ := bind_eq_ok later
    cases whole
    intro b member
    rcases mem_cons.mp member with rfl | member
    · exact ⟨a, by simp, here⟩
    · obtain ⟨a', inside, there⟩ := ih remaining b member
      exact ⟨a', by simp [inside], there⟩

theorem mapM_eq_ok {f : α → Outcome β} {g : α → β} {list : List α} (each : ∀ a ∈ list, f a = .ok (g a)) :
    list.mapM f = .ok (list.map g) := by
  induction list with
  | nil => rfl
  | cons a list ih =>
    obtain ⟨here, rest⟩ := forall_mem_cons.mp each
    rw [mapM_cons, here, ih rest]
    rfl

/-- A call that returns only what satisfies `P` and never aborts with the given message. -/
def Satisfies (avoided : String) (P : α → Prop) : Outcome α → Prop
  | .ok a => P a
  | .err _ => True
  | .panic m => m ≠ avoided

theorem Satisfies.bind {avoided : String} {P : α → Prop} {Q : β → Prop} {x : Outcome α} {f : α → Outcome β}
    (first : Satisfies avoided P x) (rest : ∀ a, P a → Satisfies avoided Q (f a)) :
    Satisfies avoided Q (x >>= f) := by
  cases x with
  | ok a => exact rest a first
  | err m => trivial
  | panic m => exact first

theorem Satisfies.foldlM {σ : Type} {avoided : String} {P : σ → Prop} {turn : σ → α → Outcome σ} (list : List α)
    (each : ∀ s a, P s → Satisfies avoided P (turn s a)) {s : σ} (start : P s) :
    Satisfies avoided P (list.foldlM turn s) := by
  induction list generalizing s with
  | nil => exact start
  | cons a list ih => exact (each s a start).bind fun s' now => ih now

/-- A call that returns only what satisfies `P`, if it returns. -/
def Ensures (P : α → Prop) (x : Outcome α) : Prop := ∀ a, x = .ok a → P a

theorem Ensures.pure {P : α → Prop} {a : α} (now : P a) : Ensures P (Pure.pure a : Outcome α) := by
  rintro b ⟨⟩
  exact now

theorem Ensures.bind {P : α → Prop} {Q : β → Prop} {x : Outcome α} {f : α → Outcome β} (first : Ensures P x)
    (rest : ∀ a, P a → Ensures Q (f a)) : Ensures Q (x >>= f) := by
  intro b returned
  obtain ⟨a, here, there⟩ := bind_eq_ok returned
  exact rest a (first a here) b there

theorem Ensures.foldlM {σ : Type} {P : σ → Prop} {turn : σ → α → Outcome σ} (list : List α)
    (each : ∀ s a, P s → Ensures P (turn s a)) {s : σ} (start : P s) : Ensures P (list.foldlM turn s) := by
  induction list generalizing s with
  | nil => exact Ensures.pure start
  | cons a list ih =>
    exact (each s a start).bind fun s' now => ih now

/-- A call that returns what satisfies `P`, or aborts, but does not fail. -/
def Finishes (P : α → Prop) (x : Outcome α) : Prop := (∀ m, x ≠ .err m) ∧ Ensures P x

theorem Finishes.pure {P : α → Prop} {a : α} (now : P a) : Finishes P (.ok a) := ⟨by simp, Ensures.pure now⟩

theorem Finishes.panic {P : α → Prop} (m : String) : Finishes P (.panic m : Outcome α) :=
  ⟨by simp, by simp [Ensures]⟩

theorem Finishes.mono {P Q : α → Prop} {x : Outcome α} (first : Finishes P x) (weaker : ∀ a, P a → Q a) : Finishes Q x :=
  ⟨first.1, fun a returned => weaker a (first.2 a returned)⟩

theorem Finishes.bind {P : α → Prop} {Q : β → Prop} {x : Outcome α} {f : α → Outcome β} (first : Finishes P x)
    (rest : ∀ a, P a → Finishes Q (f a)) : Finishes Q (x >>= f) := by
  cases x with
  | ok a => exact rest a (first.2 a rfl)
  | err m => exact absurd rfl (first.1 m)
  | panic m => exact Finishes.panic m

theorem Finishes.foldlM {σ : Type} {P : σ → Prop} {turn : σ → α → Outcome σ} (list : List α)
    (each : ∀ s, ∀ a ∈ list, P s → Finishes P (turn s a)) {s : σ} (start : P s) : Finishes P (list.foldlM turn s) := by
  induction list generalizing s with
  | nil => exact Finishes.pure start
  | cons a list ih =>
    exact (each s a (by simp) start).bind fun s' now => ih (fun t b listed => each t b (by simp [listed])) now

end Outcome

/-- A loop that returns early, with `true`, after the first turn that does. -/
def untilTrue {m : Type → Type} [Monad m] {α σ : Type} (turn : α → σ → m (Bool × σ)) : List α → σ → m (Bool × σ)
  | [], s => pure (false, s)
  | a :: rest, s => do
    let result ← turn a s
    if result.1 then pure (true, result.2) else untilTrue turn rest result.2

theorem Outcome.Ensures.untilTrue {α σ : Type} {P : σ → Prop} {turn : α → σ → Outcome (Bool × σ)} (list : List α)
    (each : ∀ a s, P s → Ensures (fun result => P result.2) (turn a s)) {s : σ} (start : P s) :
    Ensures (fun result => P result.2) (Machine.untilTrue turn list s) := by
  induction list generalizing s with
  | nil => exact Ensures.pure start
  | cons a list ih =>
    refine (each a s start).bind fun result now => ?_
    split
    · exact Ensures.pure now
    · exact ih now

theorem untilTrue_simulates {α σ τ : Type} {R : σ → τ → Prop} {turn : α → σ → Option (Bool × σ)}
    {turn' : α → τ → Outcome (Bool × τ)} (list : List α)
    (each : ∀ a ∈ list, ∀ s t b s', R s t → turn a s = some (b, s') → ∃ t', turn' a t = .ok (b, t') ∧ R s' t') :
    ∀ s t b s', R s t → untilTrue turn list s = some (b, s') →
      ∃ t', untilTrue turn' list t = .ok (b, t') ∧ R s' t' := by
  induction list with
  | nil =>
    intro s t b s' related run
    cases run
    exact ⟨t, rfl, related⟩
  | cons a list ih =>
    intro s t b s' related run
    obtain ⟨⟨first, s₁⟩, step, rest⟩ := Option.bind_eq_some_iff.mp run
    obtain ⟨t₁, step', related₁⟩ := each a (by simp) s t first s₁ related step
    cases first with
    | true =>
      cases rest
      exact ⟨t₁, by simp [untilTrue, step', Outcome.monad_bind, Outcome.monad_pure], related₁⟩
    | false =>
      obtain ⟨t', rest', related'⟩ := ih (fun b hb => each b (by simp [hb])) s₁ t₁ b s' related₁ rest
      exact ⟨t', by simpa [untilTrue, step', Outcome.monad_bind] using rest', related'⟩

theorem foldlM_done {α σ : Type} {turn : σ → α → Outcome σ} {P : List α → σ → Prop} (list : List α)
    (each : ∀ done s, ∀ a ∈ list, P done s → ∃ s', turn s a = .ok s' ∧ P (done ++ [a]) s') :
    ∀ done s, P done s → ∃ s', list.foldlM turn s = .ok s' ∧ P (done ++ list) s' := by
  induction list with
  | nil =>
    intro done s now
    exact ⟨s, rfl, by simpa using now⟩
  | cons a list ih =>
    intro done s now
    obtain ⟨s₁, step, next⟩ := each done s a (by simp) now
    obtain ⟨s', rest, final⟩ := ih (fun done s b hb => each done s b (by simp [hb])) _ s₁ next
    refine ⟨s', ?_, by simpa using final⟩
    rw [foldlM_cons, step]
    exact rest

/-- What holds of the part of a list that a loop has gone through, as long as the loop stays within a bound
that no turn comes back to. -/
theorem foldlM_ran {α σ : Type} {turn : σ → α → Outcome σ} {Within : σ → Prop} {P : List α → σ → Prop} {list : List α}
    (back : ∀ s a s', turn s a = .ok s' → Within s' → Within s)
    (each : ∀ done a rest, list = done ++ a :: rest → ∀ s s', turn s a = .ok s' → Within s' → P done s →
      P (done ++ [a]) s') :
    ∀ s s', list.foldlM turn s = .ok s' → Within s' → P [] s → P list s' ∧ Within s := by
  suffices run : ∀ rest done, list = done ++ rest → ∀ s s', rest.foldlM turn s = .ok s' → Within s' →
      (P done s → P list s') ∧ Within s from fun s s' ran within start =>
    ⟨(run list [] rfl s s' ran within).1 start, (run list [] rfl s s' ran within).2⟩
  intro rest
  induction rest with
  | nil =>
    intro done parts s s' ran within
    cases ran
    rw [append_nil] at parts
    exact ⟨fun now => parts ▸ now, within⟩
  | cons a rest ih =>
    intro done parts s s' ran within
    obtain ⟨s₁, step, ran⟩ := Outcome.bind_eq_ok ran
    obtain ⟨later, within₁⟩ := ih (done ++ [a]) (by simpa using parts) s₁ s' ran within
    exact ⟨fun now => later (each done a rest parts s s₁ step within₁ now), back s a s₁ step within₁⟩

/-- The value a signed 32-bit register holds after an operation with result `x`. -/
def i32 (x : Int) : Int := Int.bmod x (2 ^ 32)

theorem i32_add_left (x y : Int) : i32 (i32 x + y) = i32 (x + y) := by
  simp only [i32, Int.bmod_add_bmod]

theorem i32_lt (x : Int) : i32 x < 2 ^ 31 := by
  have below := Int.bmod_lt (x := x) (m := 2 ^ 32) (by decide)
  unfold i32
  omega

theorem i32_of_range {x : Int} (low : -2 ^ 31 ≤ x) (high : x < 2 ^ 31) : i32 x = x := by
  apply Int.bmod_eq_of_le_mul_two
  · norm_num at low ⊢; omega
  · norm_num at high ⊢; omega

theorem i32_nat {n : Nat} (small : n < 2 ^ 31) : i32 n = n := i32_of_range (by omega) (by omega)

end Machine
