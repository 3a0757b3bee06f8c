import TypeScriptRs.Semver.Parsing

/-! The documented grammar of versions, the parser and the printer. -/
namespace TypeScriptRs.Semver
open Decimal List

def AllDigits (part : Text) : Prop := ∀ c ∈ part, isAsciiDigit c = true

def IsNumber (part : Text) : Prop := part ≠ [] ∧ AllDigits part ∧ (part.head? = some '0' → part = ['0'])

def IsIdentifier (part : Text) : Prop := part ≠ [] ∧ ∀ c ∈ part, isWordChar c = true

/-- Versions as documented, with X and X.Y allowed. Identifiers follow the patch version. -/
structure Pieces.Documented (p : Pieces) : Prop where
  some_ : p.core ≠ []
  few : p.core.length ≤ 3
  whole : p.core.length < 3 → p.prerelease = [] ∧ p.build = []
  core : ∀ part ∈ p.core, IsNumber part
  prerelease : ∀ part ∈ p.prerelease, IsIdentifier part ∧ (AllDigits part → IsNumber part)
  build : ∀ part ∈ p.build, IsIdentifier part

/-- An identifier that starts with a digit without being a number. -/
def DigitLedWord (part : Text) : Prop := (∃ c rest, part = c :: rest ∧ isAsciiDigit c = true) ∧ ¬AllDigits part

theorem isNumericIdentifier_eq_true {part : Text} : isNumericIdentifier part = true ↔ IsNumber part := by
  constructor
  · intro numeric
    refine ⟨?_, fun c => mem_of_isNumericIdentifier numeric, ?_⟩
    · rintro rfl
      exact absurd numeric (by decide)
    intro leading
    rcases Bool.or_eq_true_iff.mp numeric with zero | rest
    · exact of_decide_eq_true zero
    cases part with
    | nil => cases rest
    | cons c part =>
      cases Option.some_injective _ leading
      exact absurd (Bool.and_eq_true_iff.mp (Bool.and_eq_true_iff.mp rest).1).1 (by decide)
  rintro ⟨some_, digits, plain⟩
  cases part with
  | nil => exact absurd rfl some_
  | cons c part =>
    by_cases zero : c = '0'
    · rw [plain (by rw [zero]; rfl)]
      decide
    obtain ⟨low, high⟩ := Bool.and_eq_true_iff.mp (digits c (by simp))
    have above : '0'.toNat ≤ c.toNat := of_decide_eq_true low
    have other : c.toNat ≠ '0'.toNat := fun same => zero (Char.toNat_inj.mp same)
    have first : '1' ≤ c := show '1'.toNat ≤ c.toNat by
      have one : '1'.toNat = '0'.toNat + 1 := by decide
      omega
    have rest : part.all isAsciiDigit = true := all_eq_true.mpr fun d listed => digits d (by simp [listed])
    exact Bool.or_eq_true_iff.mpr (.inr (by simp [first, of_decide_eq_true high, rest]))

theorem isPrereleasePart_eq_true {part : Text} : isPrereleasePart part = true ↔
    (IsIdentifier part ∧ (AllDigits part → IsNumber part)) ∧ ¬DigitLedWord part := by
  constructor
  · intro formed
    have starts : ∀ c rest, part = c :: rest → isAsciiDigit c = true → isNumericIdentifier part = true := by
      rintro c rest rfl digit
      rw [isPrereleasePart_cons, startsWord_of_digit digit] at formed
      simpa using formed
    refine ⟨⟨isPrereleasePart_word formed, ?_⟩, ?_⟩
    · intro digits
      obtain ⟨c, rest, shape⟩ := exists_cons_of_ne_nil (isPrereleasePart_word formed).1
      exact isNumericIdentifier_eq_true.mp (starts c rest shape (digits c (by simp [shape])))
    · rintro ⟨⟨c, rest, shape, digit⟩, word⟩
      exact word fun d => mem_of_isNumericIdentifier (starts c rest shape digit)
  rintro ⟨⟨⟨some_, chars⟩, number⟩, word⟩
  obtain ⟨c, rest, rfl⟩ := exists_cons_of_ne_nil some_
  rw [isPrereleasePart_cons]
  have first := chars c (by simp)
  rw [isWordChar_eq] at first
  rcases Bool.or_eq_true_iff.mp first with digit | letter
  · have digits : AllDigits (c :: rest) := by
      by_contra other
      exact word ⟨⟨c, rest, rfl, digit⟩, other⟩
    rw [isNumericIdentifier_eq_true.mpr (number digits), Bool.true_or]
  · have later : rest.all isWordChar = true := all_eq_true.mpr fun d listed => chars d (by simp [listed])
    rw [letter, later, Bool.and_true, Bool.or_true]

theorem isBuildPart_eq_true {part : Text} : isBuildPart part = true ↔ IsIdentifier part := by
  constructor
  · exact isBuildPart_word
  · rintro ⟨some_, chars⟩
    exact Bool.and_eq_true_iff.mpr ⟨decide_eq_true some_, all_eq_true.mpr chars⟩

/-- No prerelease identifier of the text is a word that starts with a digit. -/
def NoDigitLedWord (text : Text) : Prop :=
  ∀ p : Pieces, p.Documented → p.text = text → ∀ part ∈ p.prerelease, ¬DigitLedWord part

theorem Pieces.accepted_iff (p : Pieces) : p.Accepted ↔
    p.Documented ∧ (∀ part ∈ p.core, numberOf part < 2 ^ 32) ∧ ∀ part ∈ p.prerelease, ¬DigitLedWord part := by
  constructor
  · intro accepted
    have prerelease := fun part listed => isPrereleasePart_eq_true.mp (accepted.prerelease part listed)
    refine ⟨⟨accepted.some_, accepted.few, accepted.whole, ?_, ?_, ?_⟩, ?_, ?_⟩
    · exact fun part listed => isNumericIdentifier_eq_true.mp (accepted.core part listed).1
    · exact fun part listed => (prerelease part listed).1
    · exact fun part listed => isBuildPart_eq_true.mp (accepted.build part listed)
    · exact fun part listed => (accepted.core part listed).2
    · exact fun part listed => (prerelease part listed).2
  · rintro ⟨documented, fits, words⟩
    refine ⟨documented.some_, documented.few, documented.whole, ?_, ?_, ?_⟩
    · exact fun part listed => ⟨isNumericIdentifier_eq_true.mpr (documented.core part listed), fits part listed⟩
    · exact fun part listed => isPrereleasePart_eq_true.mpr ⟨documented.prerelease part listed, words part listed⟩
    · exact fun part listed => isBuildPart_eq_true.mpr (documented.build part listed)

section
variable {d : Nat} {p : Pieces}

theorem isAsciiDigit_digitChar (small : d < 10) : isAsciiDigit (digitChar d) = true := by
  interval_cases d <;> decide

theorem digitValue_digitChar (small : d < 10) : digitValue (digitChar d) = d := by
  interval_cases d <;> decide

theorem digitChar_eq_zero (small : d < 10) (zero : digitChar d = '0') : d = 0 := by
  have value := digitValue_digitChar small
  rw [zero] at value
  exact value.symm

theorem digitValue_decimal (n : Nat) : (decimal n).map digitValue = digitsOf n := by
  unfold decimal
  rw [map_map]
  conv => rhs; rw [← map_id (digitsOf n)]
  exact map_congr_left fun d listed => digitValue_digitChar (digitsOf_lt listed)

theorem numberOf_decimal (n : Nat) : numberOf (decimal n) = n := by
  unfold numberOf
  rw [digitValue_decimal, valueOf_digitsOf]

theorem isNumber_decimal (n : Nat) : IsNumber (decimal n) := by
  refine ⟨?_, ?_, ?_⟩
  · exact fun none => digitsOf_ne_nil n (map_eq_nil_iff.mp none)
  · intro c listed
    obtain ⟨d, member, rfl⟩ := mem_map.mp listed
    exact isAsciiDigit_digitChar (digitsOf_lt member)
  intro leading
  unfold decimal at leading
  rw [List.head?_map] at leading
  obtain ⟨d, head, zero⟩ := Option.map_eq_some_iff.mp leading
  have none := digitChar_eq_zero (digitsOf_lt (mem_of_head? head)) zero
  rw [none] at head
  rw [digitsOf_leading head]
  rfl

/-- The parts of a version as it is printed: all three numbers. -/
def Version.pieces (v : Version) : Pieces := ⟨[decimal v.major, decimal v.minor, decimal v.patch], v.prerelease, v.build⟩

theorem pieces_text (v : Version) : v.pieces.text = v.toText := by
  have core : join [decimal v.major, decimal v.minor, decimal v.patch] =
      decimal v.major ++ '.' :: decimal v.minor ++ '.' :: decimal v.patch := by
    simp [join, List.intercalate]
  simp only [Version.pieces, Pieces.text, Version.toText, core]
  rfl

theorem pieces_version (v : Version) : v.pieces.version = v := by
  simp [Version.pieces, Pieces.version, numberOf_decimal]

theorem numberOf_getD_lt (accepted : p.Accepted) (i : Nat) : numberOf (p.core.getD i []) < 2 ^ 32 := by
  by_cases there : i < p.core.length
  · rw [getD_eq_getElem?_getD, List.getElem?_eq_getElem there]
    exact (accepted.core _ (getElem_mem there)).2
  · rw [getD_eq_getElem?_getD, List.getElem?_eq_none (Nat.le_of_not_lt there)]
    decide

theorem pieces_accepted (accepted : p.Accepted) : p.version.pieces.Accepted := by
  have number := fun n => isNumericIdentifier_eq_true.mpr (isNumber_decimal n)
  refine ⟨cons_ne_nil _ _, le_rfl, fun short => absurd short (lt_irrefl 3), ?_, accepted.prerelease,
    accepted.build⟩
  intro part listed
  simp only [Version.pieces, mem_cons, not_mem_nil, or_false] at listed
  rcases listed with rfl | rfl | rfl
  · exact ⟨number _, (numberOf_decimal _).trans_lt (numberOf_getD_lt accepted 0)⟩
  · exact ⟨number _, (numberOf_decimal _).trans_lt (numberOf_getD_lt accepted 1)⟩
  · exact ⟨number _, (numberOf_decimal _).trans_lt (numberOf_getD_lt accepted 2)⟩

theorem tryParseVersion_toText {text : Text} {v : Version} (parsed : tryParseVersion text = .ok v) :
    tryParseVersion v.toText = .ok v := by
  obtain ⟨p, accepted, -, rfl⟩ := tryParseVersion_ok parsed
  have again := tryParseVersion_text (pieces_accepted accepted)
  rw [pieces_text, pieces_version] at again
  exact again
end

/-- Exactly the documented texts whose numbers fit in 32 bits are accepted, as far as no
prerelease identifier is a word that starts with a digit; and what is accepted is read back
from its own print. -/
theorem tryParseVersion_grammar (text : Text) :
    (NoDigitLedWord text → ((∃ v, tryParseVersion text = .ok v) ↔
      ∃ p : Pieces, p.Documented ∧ p.text = text ∧ ∀ part ∈ p.core, numberOf part < 2 ^ 32)) ∧
      ∀ v, tryParseVersion text = .ok v → tryParseVersion v.toText = .ok v := by
  refine ⟨?_, fun v => tryParseVersion_toText⟩
  intro words
  constructor
  · rintro ⟨v, parsed⟩
    obtain ⟨p, accepted, same, -⟩ := tryParseVersion_ok parsed
    obtain ⟨documented, fits, -⟩ := p.accepted_iff.mp accepted
    exact ⟨p, documented, same, fits⟩
  · rintro ⟨p, documented, rfl, fits⟩
    have accepted := p.accepted_iff.mpr ⟨documented, fits, words p documented rfl⟩
    exact ⟨p.version, tryParseVersion_text accepted⟩

theorem tryParseVersion_grammar_release : (∃ v, tryParseVersion "1.2.3+4".toList = .ok v) ∧
    ((∃ v, tryParseVersion "1.2.3+4".toList = .ok v) ↔
      ∃ p : Pieces, p.Documented ∧ p.text = "1.2.3+4".toList ∧ ∀ part ∈ p.core, numberOf part < 2 ^ 32) := by
  have words : NoDigitLedWord "1.2.3+4".toList := by
    intro p documented same part listed
    have sign : '-' ∈ p.text := by simp [Pieces.text, ne_nil_of_mem listed]
    rw [same] at sign
    exact absurd sign (by decide)
  exact ⟨⟨⟨1, 2, 3, [], [['4']]⟩, by decide⟩, (tryParseVersion_grammar _).1 words⟩

/-- A documented version whose major number needs more than 32 bits. -/
theorem wideMajor_rejected :
    (∃ p : Pieces, p.Documented ∧ p.text = "4294967296.0.0".toList) ∧
      ¬∃ v, tryParseVersion "4294967296.0.0".toList = .ok v := by
  constructor
  · refine ⟨⟨["4294967296".toList, ['0'], ['0']], [], []⟩, ⟨by simp, by simp, by simp, ?_, by simp, by simp⟩, by decide⟩
    intro part listed
    refine isNumericIdentifier_eq_true.mp ?_
    revert part
    decide
  · rintro ⟨v, parsed⟩
    have rejected : tryParseVersion "4294967296.0.0".toList = .error ⟨"4294967296.0.0".toList⟩ := by decide
    cases rejected.symm.trans parsed

end TypeScriptRs.Semver
