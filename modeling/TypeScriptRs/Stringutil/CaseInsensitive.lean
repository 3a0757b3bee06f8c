import TypeScriptRs.Lib.Comparison
import TypeScriptRs.Lib.Utf8

/-! Comparing and equating strings without regard to case. -/
namespace TypeScriptRs.Stringutil
open Utf8 Comparison

/-- The Unicode tables behind `to_lowercase` of characters and strings. -/
structure Unicode where
  toLowercase : Char → Text
  caseIgnorable : Char → Bool
  cased : Char → Bool

def dottedI : Char := '\u0130'
def dotAbove : Char := '\u0307'
def finalSigma : Char := 'ς'

/-- What the tables have: only the dotted `İ` has two characters. -/
structure Unicode.Standard (u : Unicode) : Prop where
  single : ∀ c, c ≠ dottedI → ∃ d, u.toLowercase c = [d]
  dotted : u.toLowercase dottedI = ['i', dotAbove]
  sigma : u.toLowercase 'Σ' = ['σ']
  lower : ∀ c ∈ ['i', dotAbove, 'σ', finalSigma], u.toLowercase c = [c]

namespace Unicode

section
variable (u : Unicode)

def caseIgnorableThenCased (text : Text) : Bool := ((text.dropWhile u.caseIgnorable).head?.map u.cased).getD false

/-- `str::to_lowercase`, between the characters before (the last one first) and none. A sigma at the end of a word has its own form. -/
def toLowercaseAfter (before : Text) : Text → Text
  | [] => []
  | c :: rest =>
    (if c = 'Σ' then
      (if u.caseIgnorableThenCased before ∧ u.caseIgnorableThenCased rest = false then [finalSigma] else ['σ'])
    else u.toLowercase c) ++ toLowercaseAfter (c :: before) rest

def equateStringCaseInsensitive (a b : Text) : Bool := a = b || u.toLowercaseAfter [] a = u.toLowercaseAfter [] b

def first (c : Char) : Char := (u.toLowercase c).head?.getD c

def compareLoop : Text → Text → Int
  | [], [] => 0
  | [], _ :: _ => -1
  | _ :: _, [] => 1
  | ca :: a, cb :: b => if u.first ca ≠ u.first cb then (if u.first ca < u.first cb then -1 else 1) else compareLoop a b

def compareStringsCaseInsensitive (a b : Text) : Int := if a = b then 0 else u.compareLoop a b
end

section
variable {u : Unicode} {a b c : Text}

def letters (u : Unicode) (text : Text) : Text := text.map u.first

def sign : Ordering → Int
  | .lt => -1
  | .eq => 0
  | .gt => 1

abbrev order (u : Unicode) (a b : Text) : Ordering := List.compareLex (fun c d => compare c.toNat d.toNat) (u.letters a) (u.letters b)

theorem lawful_order : Lawful u.order := (lawful_compare.on Char.toNat).lex.on u.letters

theorem compareLoop_eq (a b : Text) : u.compareLoop a b = sign (u.order a b) := by
  induction a generalizing b with
  | nil => cases b <;> rfl
  | cons c a ih =>
    cases b with
    | nil => rfl
    | cons d b =>
      rw [compareLoop, order, letters, letters, List.map_cons, List.map_cons, List.compareLex_cons_cons]
      have below : u.first c < u.first d ↔ (u.first c).toNat < (u.first d).toNat := UInt32.lt_iff_toNat_lt
      rcases Nat.lt_trichotomy (u.first c).toNat (u.first d).toNat with less | same | more
      · have apart : u.first c ≠ u.first d := fun same => absurd (congrArg Char.toNat same) (Nat.ne_of_lt less)
        rw [if_pos apart, if_pos (below.mpr less), compare_lt_iff_lt.mpr less]
        rfl
      · rw [if_neg (not_not_intro (Char.toNat_inj.mp same)), compare_eq_iff_eq.mpr same, ih b]
        rfl
      · have apart : u.first c ≠ u.first d := fun same => absurd (congrArg Char.toNat same) (Nat.ne_of_gt more)
        rw [if_pos apart, if_neg fun less => Nat.lt_asymm more (below.mp less), compare_gt_iff_gt.mpr more]
        rfl

theorem compareStrings_eq (a b : Text) : u.compareStringsCaseInsensitive a b = sign (u.order a b) := by
  unfold compareStringsCaseInsensitive
  split
  · rename_i same
    rw [same, lawful_order.refl]
    rfl
  · exact compareLoop_eq a b

theorem compareStrings_eq_zero_iff : u.compareStringsCaseInsensitive a b = 0 ↔ u.letters a = u.letters b := by
  have exact_ (c d : Char) : compare c.toNat d.toNat = .eq ↔ c = d := by rw [compare_eq_iff_eq, Char.toNat_inj]
  rw [compareStrings_eq, ← compareLex_eq_iff exact_]
  change sign (u.order a b) = 0 ↔ u.order a b = .eq
  cases u.order a b <;> decide

theorem compareStrings_sorts (a b c : Text) : u.compareStringsCaseInsensitive a a = 0 ∧
    u.compareStringsCaseInsensitive b a = -u.compareStringsCaseInsensitive a b ∧
    (u.compareStringsCaseInsensitive a b ≤ 0 → u.compareStringsCaseInsensitive b c ≤ 0 → u.compareStringsCaseInsensitive a c ≤ 0) := by
  have le_iff (x : Ordering) : sign x ≤ 0 ↔ x ≠ .gt := by cases x <;> decide
  simp only [compareStrings_eq, le_iff]
  refine ⟨?_, ?_, (lawful_order.composes a b c).le⟩
  · rw [lawful_order.refl]
    rfl
  · rw [lawful_order.swap a b]
    cases u.order a b <;> rfl
end

section
variable {u : Unicode} {a b : Text}

/-- How a letter is lowered: by itself, to two characters, or as the last one of a word. -/
inductive Mark
  | plain | dotted | final
  deriving DecidableEq

def marksAfter (u : Unicode) (before : Text) : Text → List Mark
  | [] => []
  | c :: rest =>
    (if c = dottedI then .dotted
    else if c = 'Σ' ∧ u.caseIgnorableThenCased before ∧ u.caseIgnorableThenCased rest = false then .final
    else .plain) :: u.marksAfter (c :: before) rest

abbrev marks (u : Unicode) (text : Text) : List Mark := u.marksAfter [] text

def spell : Text → List Mark → Text
  | c :: text, .plain :: marks => c :: spell text marks
  | _ :: text, .dotted :: marks => 'i' :: dotAbove :: spell text marks
  | _ :: text, .final :: marks => finalSigma :: spell text marks
  | _, _ => []

/-- The text with `İ` as two characters, and sigmas at the end of words in their own form. -/
def respelled (u : Unicode) (text : Text) : Text := spell text (u.marks text)

def Fits (c : Char) : Mark → Prop
  | .plain => True
  | .dotted => c = 'i'
  | .final => c = 'σ'

section
variable (standard : u.Standard)
include standard

theorem first_eq : u.first dottedI = 'i' ∧ u.first 'Σ' = 'σ' ∧ ∀ c ∈ ['i', dotAbove, 'σ', finalSigma], u.first c = c := by
  unfold first
  refine ⟨by rw [standard.dotted]; rfl, by rw [standard.sigma]; rfl, fun c listed => ?_⟩
  rw [standard.lower c listed]
  rfl

theorem marks_fit (before text : Text) : List.Forall₂ Fits (u.letters text) (u.marksAfter before text) := by
  obtain ⟨dotted, sigma, -⟩ := first_eq standard
  induction text generalizing before with
  | nil => exact .nil
  | cons c text ih =>
    refine .cons ?_ (ih (c :: before))
    split
    · rename_i same
      rw [same]
      exact dotted
    split
    · rename_i last
      rw [last.1]
      exact sigma
    · trivial

theorem letters_spell (text : Text) (marks : List Mark) : u.letters (spell text marks) = spell (u.letters text) marks := by
  obtain ⟨-, -, fixed⟩ := first_eq standard
  induction text generalizing marks with
  | nil => rfl
  | cons c text ih =>
    cases marks with
    | nil => rfl
    | cons mark marks =>
      have later := ih marks
      unfold letters at later ⊢
      cases mark with
      | plain => rw [spell, List.map_cons, List.map_cons, later, spell]
      | dotted => rw [spell, List.map_cons, List.map_cons, fixed 'i' (by simp), fixed dotAbove (by simp), later, List.map_cons, spell]
      | final => rw [spell, List.map_cons, fixed finalSigma (by simp), later, List.map_cons, spell]

theorem toLowercaseAfter_eq (before text : Text) :
    u.toLowercaseAfter before text = spell (u.letters text) (u.marksAfter before text) := by
  obtain ⟨-, sigma_, -⟩ := first_eq standard
  induction text generalizing before with
  | nil => rfl
  | cons c text ih =>
    have later := ih (c :: before)
    unfold letters at later ⊢
    rw [toLowercaseAfter, marksAfter, later, List.map_cons]
    by_cases dots : c = dottedI
    · subst dots
      rw [if_neg (by decide), if_pos rfl, standard.dotted, spell]
      rfl
    rw [if_neg dots]
    by_cases sigma : c = 'Σ'
    · subst sigma
      by_cases last : u.caseIgnorableThenCased before ∧ u.caseIgnorableThenCased text = false
      · rw [if_pos rfl, if_pos last, if_pos ⟨rfl, last⟩, spell]
        rfl
      · rw [if_pos rfl, if_neg last, if_neg fun both => last both.2, spell, sigma_]
        rfl
    · obtain ⟨d, single⟩ := standard.single c dots
      have lowered : u.first c = d := by
        unfold first
        rw [single]
        rfl
      rw [if_neg sigma, if_neg fun both => sigma both.1, single, spell, lowered]
      rfl

theorem equateString_iff :
    u.equateStringCaseInsensitive a b = true ↔ spell (u.letters a) (u.marks a) = spell (u.letters b) (u.marks b) := by
  have lowered := toLowercaseAfter_eq standard []
  unfold equateStringCaseInsensitive
  rw [Bool.or_eq_true, decide_eq_true_eq, decide_eq_true_eq, lowered, lowered]
  exact or_iff_right_of_imp fun same => by rw [same]
end

theorem spell_shift {text : Text} {marks marks' : List Mark} (fit : List.Forall₂ Fits text marks) (fit' : List.Forall₂ Fits text marks') :
    dotAbove :: spell text marks ≠ spell text marks' := by
  induction fit generalizing marks' with
  | nil =>
    simp [spell]
  | @cons c mark text marks here fit ih =>
    cases fit' with
    | @cons _ mark' _ marks' here' fit' =>
      cases mark' with
      | dotted => simp [spell, dotAbove]
      | final => simp [spell, dotAbove, finalSigma]
      | plain =>
        intro same
        obtain ⟨rfl, same⟩ := List.cons.inj same
        cases mark with
        | dotted => exact absurd (show dotAbove = 'i' from here) (by decide)
        | final => exact absurd (show dotAbove = 'σ' from here) (by decide)
        | plain => exact ih fit' same

theorem spell_inj {text : Text} {marks marks' : List Mark} (fit : List.Forall₂ Fits text marks) (fit' : List.Forall₂ Fits text marks')
    (same : spell text marks = spell text marks') : marks = marks' := by
  induction fit generalizing marks' with
  | nil =>
    cases fit'
    rfl
  | @cons c mark text marks here fit ih =>
    cases fit' with
    | @cons _ mark' _ marks' here' fit' =>
      cases mark with
      | plain =>
        cases mark' with
        | plain => exact congrArg _ (ih fit' (List.cons.inj same).2)
        | dotted => exact absurd (List.cons.inj same).2.symm (spell_shift fit' fit)
        | final =>
          subst here'
          cases same
      | dotted =>
        subst here
        cases mark' with
        | plain => exact absurd (List.cons.inj same).2 (spell_shift fit fit')
        | dotted => exact congrArg _ (ih fit' (List.cons.inj (List.cons.inj same).2).2)
        | final => cases here'
      | final =>
        subst here
        cases mark' with
        | plain => cases same
        | dotted => cases here'
        | final => exact congrArg _ (ih fit' (List.cons.inj same).2)

/-- Comparing and equating say the same of a text and another one. -/
def Consistent (u : Unicode) (a b c : Text) : Prop :=
  (u.compareStringsCaseInsensitive a a = 0 ∧ u.compareStringsCaseInsensitive b a = -u.compareStringsCaseInsensitive a b ∧
    (u.compareStringsCaseInsensitive a b ≤ 0 → u.compareStringsCaseInsensitive b c ≤ 0 → u.compareStringsCaseInsensitive a c ≤ 0)) ∧
  (u.compareStringsCaseInsensitive a b = 0 ↔ u.equateStringCaseInsensitive a b = true)

/-- Texts with the same letters have the dotted `İ` and the sigmas at the end of words in the same places, and texts with other letters
do not get the same ones by respelling. -/
def SpelledAlike (u : Unicode) (a b : Text) : Prop :=
  if u.letters a = u.letters b then u.marks a = u.marks b else u.letters (u.respelled a) ≠ u.letters (u.respelled b)
end

theorem consistent_iff {u : Unicode} (standard : u.Standard) (a b c : Text) : u.Consistent a b c ↔ u.SpelledAlike a b := by
  unfold Consistent SpelledAlike
  rw [and_iff_right (compareStrings_sorts a b c), compareStrings_eq_zero_iff, equateString_iff standard]
  split
  · rename_i same
    rw [iff_true_left same]
    constructor
    · intro spelled
      rw [same] at spelled
      exact spell_inj (same ▸ marks_fit standard [] a) (marks_fit standard [] b) spelled
    · intro marks
      rw [same, marks]
  · rename_i other
    unfold respelled
    rw [iff_false_left other, letters_spell standard, letters_spell standard]

def sampleUnicode : Unicode where
  toLowercase c := if c = dottedI then ['i', dotAbove] else if c = 'Σ' then ['σ'] else [c.toLower]
  caseIgnorable c := c = '\''
  cased c := c.isAlpha || c = 'Σ' || c = 'σ' || c = finalSigma

theorem sampleUnicode_standard : sampleUnicode.Standard where
  single c other := by
    unfold sampleUnicode
    dsimp only
    rw [if_neg other]
    split <;> exact ⟨_, rfl⟩
  dotted := rfl
  sigma := rfl
  lower := by decide

theorem consistent_iff_sigma : sampleUnicode.Consistent "aΣ".toList "AΣ".toList "b".toList := by
  refine (consistent_iff sampleUnicode_standard _ _ _).mpr ?_
  unfold SpelledAlike
  decide

theorem dotted_inconsistent : ¬sampleUnicode.Consistent [dottedI] ['i'] [] := by
  rintro ⟨-, same⟩
  exact absurd (same.mp (by decide)) (by decide)

end Unicode

end TypeScriptRs.Stringutil
