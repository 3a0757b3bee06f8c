import Mathlib.Data.Nat.Digits.Lemmas

/-! Decimal notation of natural numbers, the highest digit first. -/
namespace Decimal
open List

def digitsOf (n : Nat) : List Nat := if n = 0 then [0] else (Nat.digits 10 n).reverse

def valueOf (digits : List Nat) : Nat := digits.foldl (fun n d => n * 10 + d) 0

theorem valueOf_reverse (digits : List Nat) : valueOf digits.reverse = Nat.ofDigits 10 digits := by
  unfold valueOf
  rw [foldl_reverse, Nat.ofDigits_eq_foldr]
  congr 1
  funext d n
  simp [Nat.add_comm, Nat.mul_comm]

theorem valueOf_digitsOf (n : Nat) : valueOf (digitsOf n) = n := by
  unfold digitsOf
  split
  · rename_i zero
    rw [zero]
    rfl
  · rw [valueOf_reverse, Nat.ofDigits_digits]

theorem digitsOf_lt {n d : Nat} (member : d ∈ digitsOf n) : d < 10 := by
  unfold digitsOf at member
  split at member
  · cases mem_singleton.mp member
    decide
  · exact Nat.digits_lt_base (by decide) (mem_reverse.mp member)

theorem digitsOf_ne_nil (n : Nat) : digitsOf n ≠ [] := by
  unfold digitsOf
  split
  · simp
  · rename_i positive
    exact fun none => positive (Nat.digits_eq_nil_iff_eq_zero.mp (reverse_eq_nil_iff.mp none))

theorem digitsOf_leading {n : Nat} (leading : (digitsOf n).head? = some 0) : n = 0 := by
  by_contra positive
  unfold digitsOf at leading
  rw [if_neg positive, List.head?_reverse] at leading
  have some_ : Nat.digits 10 n ≠ [] := Nat.digits_ne_nil_iff_ne_zero.mpr positive
  rw [List.getLast?_eq_getLast_of_ne_nil some_] at leading
  exact Nat.getLast_digit_ne_zero 10 positive (Option.some_injective _ leading)

def Plain (digits : List Nat) : Prop :=
  (∀ d ∈ digits, d < 10) ∧ digits ≠ [] ∧ (digits.head? = some 0 → digits = [0])

theorem foldl_digits (digits : List Nat) : ∀ n, digits.foldl (fun n d => n * 10 + d) n =
    n * 10 ^ digits.length + valueOf digits := by
  induction digits with
  | nil =>
    intro n
    simp [valueOf]
  | cons d digits ih =>
    intro n
    have first := ih (n * 10 + d)
    have none := ih (0 * 10 + d)
    rw [valueOf, foldl_cons, foldl_cons, first, none, length_cons, pow_succ]
    ring

theorem valueOf_cons (d : Nat) (digits : List Nat) : valueOf (d :: digits) = d * 10 ^ digits.length + valueOf digits := by
  have whole := foldl_digits digits (0 * 10 + d)
  simpa [valueOf] using whole

theorem valueOf_lt {digits : List Nat} (small : ∀ d ∈ digits, d < 10) : valueOf digits < 10 ^ digits.length := by
  induction digits with
  | nil => decide
  | cons d digits ih =>
    have rest := ih fun e he => small e (by simp [he])
    have first := small d (by simp)
    have bound : (d + 1) * 10 ^ digits.length ≤ 10 * 10 ^ digits.length := Nat.mul_le_mul_right _ first
    rw [valueOf_cons, length_cons, pow_succ]
    rw [Nat.add_mul] at bound
    omega

theorem dropWhile_zero {digits : List Nat} (small : ∀ d ∈ digits, d < 10) :
    digits.dropWhile (· = 0) = (Nat.digits 10 (valueOf digits)).reverse := by
  induction digits with
  | nil => rfl
  | cons d digits ih =>
    by_cases zero : d = 0
    · subst zero
      rw [dropWhile_cons_of_pos (by simp), ih fun e listed => small e (mem_cons_of_mem 0 listed)]
      rfl
    · rw [dropWhile_cons_of_neg (by simpa using zero), ← reverse_reverse (d :: digits), valueOf_reverse,
        Nat.digits_ofDigits 10 (by decide) _ (fun e listed => small e (mem_reverse.mp listed)) fun some_ => ?_]
      rwa [getLast_reverse]

theorem Plain.valueOf_lt_of_length_lt {left right : List Nat} (l : Plain left) (r : Plain right)
    (shorter : left.length < right.length) : valueOf left < valueOf right := by
  obtain ⟨d, rest, rfl⟩ := exists_cons_of_ne_nil r.2.1
  have some_ : 0 < left.length := length_pos_of_ne_nil l.2.1
  have first : d ≠ 0 := by
    rintro rfl
    rw [r.2.2 rfl, length_singleton] at shorter
    omega
  have below := valueOf_lt l.1
  have step : 10 ^ left.length ≤ 10 ^ rest.length :=
    Nat.pow_le_pow_right (by decide) (by simpa using Nat.lt_succ_iff.mp shorter)
  have high : 1 * 10 ^ rest.length ≤ d * 10 ^ rest.length := Nat.mul_le_mul_right _ (Nat.pos_of_ne_zero first)
  rw [valueOf_cons]
  omega

theorem valueOf_lt_of_lex {left right : List Nat} (small : ∀ d ∈ left, d < 10)
    (same : left.length = right.length) (less : left < right) : valueOf left < valueOf right := by
  induction left generalizing right with
  | nil =>
    cases length_eq_zero_iff.mp same.symm
    exact absurd less (lt_irrefl _)
  | cons a left ih =>
    obtain ⟨b, right, rfl⟩ := exists_cons_of_length_eq_add_one same.symm
    have lengths : left.length = right.length := by simpa using same
    have low := valueOf_lt fun e he => small e (mem_cons_of_mem a he)
    rw [valueOf_cons, valueOf_cons, lengths]
    rcases cons_lt_cons_iff.mp less with first | ⟨rfl, rest⟩
    · have bound : (a + 1) * 10 ^ right.length ≤ b * 10 ^ right.length := Nat.mul_le_mul_right _ first
      rw [Nat.add_mul] at bound
      rw [lengths] at low
      omega
    · have := ih (fun e he => small e (by simp [he])) lengths rest
      omega

end Decimal
