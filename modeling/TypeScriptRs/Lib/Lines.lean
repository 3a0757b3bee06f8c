import TypeScriptRs.Lib.Utf8

/-! Lines of a text, for any set of characters that end one. `\r\n` ends one line, at the line feed. -/
namespace Lines
open Utf8 List

variable {isBreak : Char → Bool} {text after : Text}

def ends (isBreak : Char → Bool) (c : Char) (next : Option Char) : Bool :=
  isBreak c && !(c = '\r' && next = some '\n')

/-- The number of lines that end in a text with another one after it. -/
def breaks (isBreak : Char → Bool) : Text → Text → Nat
  | [], _ => 0
  | c :: text, after => (if ends isBreak c (text ++ after).head? then 1 else 0) + breaks isBreak text after

def lastLine (isBreak : Char → Bool) : Text → Text → Text
  | [], _ => []
  | c :: text, after =>
    if breaks isBreak (c :: text) after = 0 then c :: text else lastLine isBreak text after

/-- The place between two texts is between a carriage return and its line feed. -/
def Splits (before after : Text) : Prop := before.getLast? = some '\r' ∧ after.head? = some '\n'

instance (before after : Text) : Decidable (Splits before after) := inferInstanceAs (Decidable (_ ∧ _))

def columnOf (text : Text) : Nat := (text.map utf16Size).sum

/-- A part of a text begins at a byte offset, on a line and at a column in UTF-16 units. -/
def BeginsAt (isBreak : Char → Bool) (part text : Text) (offset line column : Nat) : Prop :=
  ∃ before after, text = before ++ part ++ after ∧ bytes before = offset ∧
    breaks isBreak before (part ++ after) = line ∧ columnOf (lastLine isBreak before (part ++ after)) = column

theorem breaks_cons (c : Char) (text after : Text) : breaks isBreak (c :: text) after =
    (if ends isBreak c (text ++ after).head? then 1 else 0) + breaks isBreak text after := rfl

theorem lastLine_cons (c : Char) (text after : Text) : lastLine isBreak (c :: text) after =
    if breaks isBreak (c :: text) after = 0 then c :: text else lastLine isBreak text after := rfl

theorem breaks_append (first second after : Text) : breaks isBreak (first ++ second) after =
    breaks isBreak first (second ++ after) + breaks isBreak second after := by
  induction first with
  | nil => rw [nil_append, breaks, Nat.zero_add]
  | cons c first ih => rw [cons_append, breaks, breaks, ih, append_assoc, Nat.add_assoc]

theorem lastLine_of_breaks (none_ : breaks isBreak text after = 0) : lastLine isBreak text after = text := by
  cases text with
  | nil => rfl
  | cons c text => rw [lastLine, if_pos none_]

theorem lastLine_append (first second after : Text) : lastLine isBreak (first ++ second) after =
    if breaks isBreak second after = 0 then lastLine isBreak first (second ++ after) ++ second
    else lastLine isBreak second after := by
  induction first with
  | nil =>
    rw [nil_append]
    split
    · rename_i none_
      rw [lastLine_of_breaks none_]
      rfl
    · rfl
  | cons c first ih =>
    have all : breaks isBreak (c :: (first ++ second)) after = _ := breaks_append (c :: first) second after
    rw [cons_append]
    rw [lastLine, all, lastLine, ih]
    split
    · rename_i none_
      rw [if_pos (by omega), if_pos (by omega), cons_append]
    · split
      · rw [if_neg (by omega)]
      · rfl

theorem breaks_of_not_splits (whole : ¬Splits text after) : breaks isBreak text after = breaks isBreak text [] := by
  induction text with
  | nil => rfl
  | cons c text ih =>
    cases text with
    | nil =>
      simp only [breaks, nil_append, ends]
      by_cases feed : after.head? = some '\n'
      · have other : c ≠ '\r' := fun same => whole ⟨by rw [same]; rfl, feed⟩
        simp [other]
      · simp [feed]
    | cons d text =>
      have later := ih fun split => whole ⟨by simpa using split.1, split.2⟩
      rw [breaks_cons c (d :: text), breaks_cons c (d :: text), later]
      rfl

theorem lastLine_of_not_splits (whole : ¬Splits text after) : lastLine isBreak text after = lastLine isBreak text [] := by
  induction text with
  | nil => rfl
  | cons c text ih =>
    cases text with
    | nil => rw [lastLine, lastLine, breaks_of_not_splits whole]; rfl
    | cons d text =>
      have later := ih fun split => whole ⟨by simpa using split.1, split.2⟩
      rw [lastLine_cons c (d :: text), lastLine_cons c (d :: text), breaks_of_not_splits whole, later]

variable (isBreak) in
theorem lastLine_suffix (text after : Text) : ∃ done, text = done ++ lastLine isBreak text after := by
  induction text with
  | nil => exact ⟨[], rfl⟩
  | cons c text ih =>
    rw [lastLine]
    split
    · exact ⟨[], rfl⟩
    · obtain ⟨done, shape⟩ := ih
      exact ⟨c :: done, by rw [cons_append, ← shape]⟩

def lastStart (isBreak : Char → Bool) (text : Text) : Nat := bytes text - bytes (lastLine isBreak text [])

theorem lastStart_of_breaks (none_ : breaks isBreak text [] = 0) : lastStart isBreak text = 0 := by
  rw [lastStart, lastLine_of_breaks none_, Nat.sub_self]

variable (isBreak) in
theorem bytes_lastLine_le (text after : Text) : bytes (lastLine isBreak text after) ≤ bytes text := by
  obtain ⟨done, shape⟩ := lastLine_suffix isBreak text after
  have size := congrArg bytes shape
  rw [bytes_append] at size
  omega

theorem lastStart_cons {c : Char} (some_ : breaks isBreak (c :: text) [] ≠ 0) :
    lastStart isBreak (c :: text) = c.utf8Size + lastStart isBreak text := by
  have size := bytes_lastLine_le isBreak text []
  rw [lastStart, lastStart, lastLine_cons, if_neg some_, bytes_cons]
  omega

theorem dropBytes_lastStart (text : Text) : dropBytes text (lastStart isBreak text) = some (lastLine isBreak text []) := by
  obtain ⟨done, shape⟩ := lastLine_suffix isBreak text []
  have offset : lastStart isBreak text = bytes done := by
    have size := congrArg bytes shape
    rw [bytes_append] at size
    unfold lastStart
    omega
  have cut := dropBytes_append done (lastLine isBreak text [])
  rwa [← shape, ← offset] at cut

theorem columnOf_le (text : Text) : columnOf text ≤ bytes text := by
  induction text with
  | nil => exact Nat.le_refl 0
  | cons c text ih =>
    have size := utf16Size_le c
    simp only [columnOf, map_cons, sum_cons, bytes_cons] at ih ⊢
    omega

theorem columnOf_append (first second : Text) : columnOf (first ++ second) = columnOf first + columnOf second := by
  simp [columnOf]

theorem breaks_le (text after : Text) : breaks isBreak text after ≤ bytes text := by
  induction text with
  | nil => exact Nat.le_refl 0
  | cons c text ih =>
    have size := c.utf8Size_pos
    rw [breaks, bytes_cons]
    split <;> omega

end Lines
