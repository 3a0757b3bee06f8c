import Mathlib.Algebra.GroupWithZero.Nat
import Mathlib.Data.List.Infix
import Mathlib.Data.String.Basic

/-! Texts as lists of characters, addressed by the byte offsets of their UTF-8 encoding. -/
namespace Utf8
open List Option

abbrev Text := List Char

instance : LawfulBEq Text := inferInstance

-- a condition on the characters of a text is decided along the text, not over every character there is
instance decidableEvery (p : Char → Prop) [DecidablePred p] (text : Text) : Decidable (∀ c ∈ text, p c) := List.decidableBAll p text

instance decidableNext (p : Char → Prop) [DecidablePred p] (next : Option Char) : Decidable (∃ c ∈ next, p c) :=
  Option.decidableExistsMem next

def bytes (text : Text) : Nat := (text.map Char.utf8Size).sum

def utf16Size (c : Char) : Nat := if c.toNat ≤ 0xFFFF then 1 else 2

/-- The text from a byte offset on, if the offset is between two characters. -/
def dropBytes : Text → Nat → Option Text
  | text, 0 => some text
  | [], _ + 1 => none
  | c :: text, n + 1 => if c.utf8Size ≤ n + 1 then dropBytes text (n + 1 - c.utf8Size) else none

/-- The text before a byte offset, if the offset is between two characters. -/
def takeBytes : Text → Nat → Option Text
  | _, 0 => some []
  | [], _ + 1 => none
  | c :: text, n + 1 => if c.utf8Size ≤ n + 1 then (takeBytes text (n + 1 - c.utf8Size)).map (c :: ·) else none

def slice (text : Text) (start stop : Nat) : Option Text :=
  if start ≤ stop then (dropBytes text start).bind fun rest => takeBytes rest (stop - start) else none

@[simp] theorem bytes_nil : bytes [] = 0 := rfl

@[simp] theorem bytes_cons (c : Char) (text : Text) : bytes (c :: text) = c.utf8Size + bytes text := by
  simp [bytes]

@[simp] theorem bytes_append (a b : Text) : bytes (a ++ b) = bytes a + bytes b := by
  simp [bytes]

theorem bytes_replicate (n : Nat) (c : Char) : bytes (List.replicate n c) = n * c.utf8Size := by
  simp [bytes]

theorem dropBytes_cons (c : Char) (text : Text) (n : Nat) : dropBytes (c :: text) (c.utf8Size + n) = dropBytes text n := by
  obtain ⟨k, size⟩ := Nat.exists_eq_succ_of_ne_zero (Nat.pos_iff_ne_zero.mp c.utf8Size_pos)
  have next : c.utf8Size + n = (k + n) + 1 := by omega
  rw [next, dropBytes, if_pos (by omega)]
  congr 1
  omega

theorem takeBytes_cons (c : Char) (text : Text) (n : Nat) :
    takeBytes (c :: text) (c.utf8Size + n) = (takeBytes text n).map (c :: ·) := by
  obtain ⟨k, size⟩ := Nat.exists_eq_succ_of_ne_zero (Nat.pos_iff_ne_zero.mp c.utf8Size_pos)
  have next : c.utf8Size + n = (k + n) + 1 := by omega
  rw [next, takeBytes, if_pos (by omega)]
  congr 2
  omega

theorem dropBytes_append (a b : Text) : dropBytes (a ++ b) (bytes a) = some b := by
  induction a with
  | nil => cases b <;> rfl
  | cons c a ih => rw [cons_append, bytes_cons, dropBytes_cons, ih]

theorem takeBytes_append (a b : Text) : takeBytes (a ++ b) (bytes a) = some a := by
  induction a with
  | nil => cases b <;> rfl
  | cons c a ih => rw [cons_append, bytes_cons, takeBytes_cons, ih, map_some]

theorem dropBytes_add (a b : Text) (n : Nat) : dropBytes (a ++ b) (bytes a + n) = dropBytes b n := by
  induction a with
  | nil => rw [nil_append, bytes_nil, Nat.zero_add]
  | cons c a ih => rw [cons_append, bytes_cons, Nat.add_assoc, dropBytes_cons, ih]

theorem takeBytes_add (a b : Text) (n : Nat) : takeBytes (a ++ b) (bytes a + n) = (takeBytes b n).map (a ++ ·) := by
  induction a with
  | nil => simp
  | cons c a ih =>
    rw [cons_append, bytes_cons, Nat.add_assoc, takeBytes_cons, ih, Option.map_map]
    rfl

theorem dropBytes_eq_some {text rest : Text} {n : Nat} (cut : dropBytes text n = some rest) :
    ∃ front, text = front ++ rest ∧ bytes front = n := by
  fun_induction dropBytes text n with
  | case1 text =>
    cases cut
    exact ⟨[], rfl, rfl⟩
  | case2 => cases cut
  | case3 c text n fits ih =>
    obtain ⟨front, shape, size⟩ := ih cut
    refine ⟨c :: front, congrArg (c :: ·) shape, ?_⟩
    rw [bytes_cons, size]
    omega
  | case4 => cases cut

theorem takeBytes_eq_some {text front : Text} {n : Nat} (cut : takeBytes text n = some front) :
    ∃ rest, dropBytes text n = some rest ∧ text = front ++ rest := by
  fun_induction takeBytes text n generalizing front with
  | case1 text =>
    cases cut
    exact ⟨text, by cases text <;> rfl, rfl⟩
  | case2 => cases cut
  | case3 c text n fits ih =>
    obtain ⟨front', inner, rfl⟩ := map_eq_some_iff.mp cut
    obtain ⟨rest, dropped, rfl⟩ := ih inner
    exact ⟨rest, by rw [dropBytes, if_pos fits, dropped], rfl⟩
  | case4 => cases cut

theorem dropBytes_append_iff {a b : Text} {n : Nat} : dropBytes (a ++ b) n = some b ↔ n = bytes a := by
  constructor
  · intro cut
    obtain ⟨front, shape, rfl⟩ := dropBytes_eq_some cut
    rw [append_cancel_right shape]
  · rintro rfl
    exact dropBytes_append a b

theorem slice_append (a b c : Text) : slice (a ++ b ++ c) (bytes a) (bytes a + bytes b) = some b := by
  unfold slice
  rw [if_pos (Nat.le_add_right _ _), append_assoc, dropBytes_append, bind_some, Nat.add_sub_cancel_left,
    takeBytes_append]

theorem slice_eq_some {text part : Text} {start stop : Nat} (cut : slice text start stop = some part) :
    ∃ before after, text = before ++ part ++ after ∧ start = bytes before ∧ stop = bytes before + bytes part := by
  unfold slice at cut
  split at cut
  · rename_i ordered
    obtain ⟨rest, dropped, taken⟩ := bind_eq_some_iff.mp cut
    obtain ⟨before, whole, start_⟩ := dropBytes_eq_some dropped
    obtain ⟨after, left, rfl⟩ := takeBytes_eq_some taken
    have length := dropBytes_append_iff.mp left
    exact ⟨before, after, by rw [whole, append_assoc], start_.symm, by omega⟩
  · cases cut

theorem slice_extend (before part after : Text) (n : Nat) :
    slice (before ++ part ++ after) (bytes before) (bytes before + bytes part + n) =
      (slice (before ++ part ++ after) (bytes before + bytes part) (bytes before + bytes part + n)).map (part ++ ·) := by
  have first : dropBytes (before ++ part ++ after) (bytes before) = some (part ++ after) := by
    rw [append_assoc, dropBytes_append]
  have second : dropBytes (before ++ part ++ after) (bytes before + bytes part) = some after := by
    rw [← bytes_append, dropBytes_append]
  unfold slice
  rw [if_pos (by omega), if_pos (by omega), first, second, bind_some, bind_some, Nat.add_sub_cancel_left,
    Nat.add_assoc, Nat.add_sub_cancel_left, takeBytes_add]

section
variable {f : Char → Char} (size : ∀ c, (f c).utf8Size = c.utf8Size)
include size

theorem bytes_map (text : Text) : bytes (text.map f) = bytes text := by
  induction text with
  | nil => rfl
  | cons c text ih => rw [map_cons, bytes_cons, bytes_cons, size, ih]

theorem takeBytes_map (text : Text) (n : Nat) : takeBytes (text.map f) n = (takeBytes text n).map (·.map f) := by
  fun_induction takeBytes text n with
  | case1 => rw [takeBytes, map_some, map_nil]
  | case2 => rfl
  | case3 c text n fits ih =>
    rw [map_cons, takeBytes, size, if_pos fits, ih, Option.map_map, Option.map_map]
    rfl
  | case4 c text n long => rw [map_cons, takeBytes, size, if_neg long, map_none]

theorem dropBytes_map (text : Text) (n : Nat) : dropBytes (text.map f) n = (dropBytes text n).map (·.map f) := by
  fun_induction dropBytes text n with
  | case1 => rw [dropBytes, map_some]
  | case2 => rfl
  | case3 c text n fits ih => rw [map_cons, dropBytes, size, if_pos fits, ih]
  | case4 c text n long => rw [map_cons, dropBytes, size, if_neg long, map_none]
end

theorem utf16Size_pos (c : Char) : 0 < utf16Size c := by
  unfold utf16Size
  split <;> decide

theorem utf16Size_le (c : Char) : utf16Size c ≤ c.utf8Size := by
  have size := c.utf8Size_pos
  unfold utf16Size
  split
  · exact size
  rename_i high
  have wide : c.utf8Size ≠ 1 := by
    intro one
    have low : c.toNat ≤ 0x7f := UInt32.le_iff_toNat_le.mp (Char.utf8Size_eq_one_iff.mp one)
    omega
  omega

theorem toLower_cases (c : Char) : c.toLower = c ∨ ∃ n < 26, c = Char.ofNat (65 + n) ∧ c.toLower = Char.ofNat (97 + n) := by
  have letters : ∀ n < 26, (Char.ofNat (65 + n)).toLower = Char.ofNat (97 + n) := by decide
  by_cases upper : c.val ≥ 'A'.val ∧ c.val ≤ 'Z'.val
  · have low : 65 ≤ c.toNat := upper.1
    have high : c.toNat ≤ 90 := upper.2
    have shape : c = Char.ofNat (65 + (c.toNat - 65)) := by
      rw [Nat.add_sub_cancel' low, Char.ofNat_toNat]
    refine .inr ⟨c.toNat - 65, by omega, shape, ?_⟩
    conv => lhs; rw [shape]
    exact letters _ (by omega)
  · exact .inl (dif_neg upper)

theorem toLower_utf8Size (c : Char) : c.toLower.utf8Size = c.utf8Size := by
  have sizes : ∀ n < 26, (Char.ofNat (97 + n)).utf8Size = (Char.ofNat (65 + n)).utf8Size := by decide
  rcases toLower_cases c with same | ⟨n, small, shape, lower⟩
  · rw [same]
  · rw [lower, shape, sizes n small]

theorem toLower_toLower (c : Char) : c.toLower.toLower = c.toLower := by
  have letters : ∀ n < 26, (Char.ofNat (97 + n)).toLower = Char.ofNat (97 + n) := by decide
  rcases toLower_cases c with same | ⟨n, small, -, lower⟩
  · rw [same, same]
  · rw [lower, letters n small]

theorem toLower_eq_iff {x : Char} (mark : ∀ n < 26, Char.ofNat (65 + n) ≠ x ∧ Char.ofNat (97 + n) ≠ x) (c : Char) :
    c.toLower = x ↔ c = x := by
  rcases toLower_cases c with same | ⟨n, small, shape, lower⟩
  · rw [same]
  · rw [lower, shape]
    exact iff_of_false (mark n small).2 (mark n small).1

theorem isAlpha_of_toLower {c : Char} (letter : c.toLower.isAlpha = true) : c.isAlpha = true := by
  have letters : ∀ n < 26, (Char.ofNat (65 + n)).isAlpha = true := by decide
  rcases toLower_cases c with same | ⟨n, small, shape, -⟩
  · rw [← same]
    exact letter
  · rw [shape]
    exact letters n small

theorem isAlpha_iff {c : Char} : c.isAlpha = true ↔ 'A' ≤ c ∧ c ≤ 'Z' ∨ 'a' ≤ c ∧ c ≤ 'z' := by
  delta Char.isAlpha Char.isUpper Char.isLower
  simp only [Bool.or_eq_true, Bool.and_eq_true, decide_eq_true_eq]
  rfl

theorem not_digit_of_alpha {c : Char} (letter : c.isAlpha = true) : c.isDigit = false := by
  have range := isAlpha_iff.mp letter
  simp only [Char.isDigit, Char.le_def, UInt32.le_iff_toNat_le, Bool.and_eq_false_iff, decide_eq_false_iff_not, ge_iff_le] at range ⊢
  simp only [Char.reduceVal, UInt32.reduceToNat] at range ⊢
  omega

end Utf8
