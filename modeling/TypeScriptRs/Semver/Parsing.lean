import TypeScriptRs.Lib.Split
import TypeScriptRs.Semver.Version

/-! What the parser accepts: the parts of a version's text, and the version they give. -/
namespace TypeScriptRs.Semver
open Decimal List

theorem digitValue_lt {c : Char} (digit : isAsciiDigit c = true) : digitValue c < 10 := by
  have bounds := Bool.and_eq_true_iff.mp digit
  have high : c.toNat ≤ '9'.toNat := of_decide_eq_true bounds.2
  have nine : '9'.toNat = 57 := by decide
  unfold digitValue
  omega

theorem all_of_isNumericIdentifier {text : Text} (numeric : isNumericIdentifier text = true) : text.all isAsciiDigit = true := by
  rcases Bool.or_eq_true_iff.mp numeric with zero | rest
  · rw [of_decide_eq_true zero]
    decide
  cases text with
  | nil => cases rest
  | cons c text =>
    obtain ⟨bounds, all⟩ := Bool.and_eq_true_iff.mp rest
    obtain ⟨low, high⟩ := Bool.and_eq_true_iff.mp bounds
    have digit : isAsciiDigit c = true := by
      have one : '0' ≤ '1' := by decide
      exact Bool.and_eq_true_iff.mpr ⟨decide_eq_true (one.trans (of_decide_eq_true low)), high⟩
    simp [digit, all]

theorem plain_of_isNumericIdentifier {text : Text} (numeric : isNumericIdentifier text = true) : Plain (text.map digitValue) := by
  have digits := all_of_isNumericIdentifier numeric
  refine ⟨?_, ?_, ?_⟩
  · intro d member
    obtain ⟨c, listed, rfl⟩ := mem_map.mp member
    exact digitValue_lt (all_eq_true.mp digits c listed)
  · rintro none
    rw [map_eq_nil_iff.mp none] at numeric
    exact absurd numeric (by decide)
  intro leading
  rcases Bool.or_eq_true_iff.mp numeric with zero | rest
  · rw [of_decide_eq_true zero]
    decide
  cases text with
  | nil => cases rest
  | cons c text =>
    have low := of_decide_eq_true (Bool.and_eq_true_iff.mp (Bool.and_eq_true_iff.mp rest).1).1
    have least : '1'.toNat ≤ c.toNat := low
    have one : '1'.toNat = 49 := by decide
    simp only [map_cons, List.head?_cons, Option.some.injEq, digitValue] at leading
    omega

theorem getUintComponent_numeric {text : Text} (numeric : isNumericIdentifier text = true) :
    getUintComponent text = if valueOf (text.map digitValue) < 2 ^ 32 then some (valueOf (text.map digitValue))
      else none := by
  have digits := all_of_isNumericIdentifier numeric
  have some_ : text ≠ [] := by
    rintro rfl
    exact absurd numeric (by decide)
  unfold getUintComponent
  split
  · exact absurd (all_eq_true.mp digits '+' (by simp)) (by decide)
  · simp [some_, digits]

def numberOf (part : Text) : Nat := valueOf (part.map digitValue)

section
variable {text origInput before : Text} {delimiter : Char} {after : Option Text}

theorem splitOnce_ok (accepted : splitOnce text delimiter origInput = .ok (before, after)) :
    (after = none ∧ text = before) ∨ ∃ t, after = some t ∧ t ≠ [] ∧ text = before ++ delimiter :: t := by
  have whole : [delimiter].intercalate (text.splitOn delimiter) = text := intercalate_splitOn delimiter
  unfold splitOnce at accepted
  split at accepted
  · rename_i b pieces
    cases accepted
    rw [pieces] at whole
    exact .inl ⟨rfl, by simpa using whole.symm⟩
  · rename_i b a pieces
    split at accepted
    · cases accepted
    · rename_i some_
      cases accepted
      rw [pieces] at whole
      exact .inr ⟨a, rfl, some_, by simpa [List.intercalate] using whole.symm⟩
  · cases accepted

theorem splitOnce_none (origInput : Text) (free : delimiter ∉ text) : splitOnce text delimiter origInput = .ok (text, none) := by
  unfold splitOnce
  rw [splitOn_eq_singleton free]

theorem splitOnce_some {after : Text} (origInput : Text) (free : delimiter ∉ before)
    (some_ : after ≠ []) (only : delimiter ∉ after) :
    splitOnce (before ++ delimiter :: after) delimiter origInput = .ok (before, some after) := by
  unfold splitOnce
  rw [splitOn_append_cons_self_of_not_mem free, splitOn_eq_singleton only]
  exact if_neg some_

theorem splitOnceFirst_ok (accepted : splitOnceFirst text delimiter origInput = .ok (before, after)) :
    (after = none ∧ text = before) ∨ ∃ t, after = some t ∧ t ≠ [] ∧ text = before ++ delimiter :: t := by
  unfold splitOnceFirst at accepted
  split at accepted
  · rename_i here
    dsimp only at accepted
    split at accepted
    · cases accepted
    · rename_i some_
      cases accepted
      exact .inr ⟨_, rfl, some_, Split.takeWhile_cut here⟩
  · cases accepted
    exact .inl ⟨rfl, rfl⟩

theorem splitOnceFirst_none (origInput : Text) (free : delimiter ∉ text) :
    splitOnceFirst text delimiter origInput = .ok (text, none) := by
  unfold splitOnceFirst
  rw [if_neg free]

theorem splitOnceFirst_some {after : Text} (origInput : Text) (free : delimiter ∉ before) (some_ : after ≠ []) :
    splitOnceFirst (before ++ delimiter :: after) delimiter origInput = .ok (before, some after) := by
  unfold splitOnceFirst
  rw [if_pos (by simp), Split.takeWhile_append_cons free, Split.dropWhile_append_cons free]
  exact if_neg some_

theorem identifiersOr_ok {wellFormed : Text → Bool} {text : Option Text} {parts : List Text}
    (accepted : identifiersOr origInput wellFormed text = .ok parts) :
    (text = none ∧ parts = []) ∨ ∃ t, text = some t ∧ wellFormed t = true ∧ parts = t.splitOn '.' := by
  cases text with
  | none =>
    cases accepted
    exact .inl ⟨rfl, rfl⟩
  | some t =>
    cases formed : wellFormed t with
    | false => simp [identifiersOr, formed] at accepted
    | true =>
      simp only [identifiersOr, formed, Bool.not_true, Bool.false_eq_true, if_false, Except.ok.injEq] at accepted
      exact .inr ⟨t, rfl, formed, accepted.symm⟩

theorem uintOr_ok {part : Text} {n : Nat} (numeric : isNumericIdentifier part = true) :
    uintOr origInput part = .ok n ↔ numberOf part < 2 ^ 32 ∧ numberOf part = n := by
  unfold uintOr numberOf
  rw [getUintComponent_numeric numeric]
  by_cases fits : valueOf (part.map digitValue) < 2 ^ 32
  · rw [if_pos fits]
    simp only [Except.ok.injEq, fits, true_and]
  · rw [if_neg fits]
    simp only [reduceCtorEq, fits, false_and]
end

/-- The parts of a version's text; identifiers that are missing are an empty list. -/
structure Pieces where
  core : List Text
  prerelease : List Text
  build : List Text

def Pieces.text (p : Pieces) : Text :=
  join p.core ++ (if p.prerelease ≠ [] then '-' :: join p.prerelease else []) ++
    (if p.build ≠ [] then '+' :: join p.build else [])

def Pieces.version (p : Pieces) : Version where
  major := numberOf (p.core.getD 0 [])
  minor := numberOf (p.core.getD 1 [])
  patch := numberOf (p.core.getD 2 [])
  prerelease := p.prerelease
  build := p.build

structure Pieces.Accepted (p : Pieces) : Prop where
  some_ : p.core ≠ []
  few : p.core.length ≤ 3
  whole : p.core.length < 3 → p.prerelease = [] ∧ p.build = []
  core : ∀ part ∈ p.core, isNumericIdentifier part = true ∧ numberOf part < 2 ^ 32
  prerelease : ∀ part ∈ p.prerelease, isPrereleasePart part = true
  build : ∀ part ∈ p.build, isBuildPart part = true

section
variable {c : Char} {part : Text} {parts : List Text}

theorem isAsciiDigit_not {d : Char} (digit : isAsciiDigit c = true) (other : isAsciiDigit d = false) : c ≠ d := by
  rintro rfl
  cases digit.symm.trans other

theorem mem_of_isNumericIdentifier (numeric : isNumericIdentifier part = true) (listed : c ∈ part) : isAsciiDigit c = true :=
  all_eq_true.mp (all_of_isNumericIdentifier numeric) c listed

def startsWord (c : Char) : Bool := ('A' ≤ c && c ≤ 'Z') || ('a' ≤ c && c ≤ 'z') || c = '-'

theorem startsWord_of_digit (digit : isAsciiDigit c = true) : startsWord c = false := by
  obtain ⟨low, high⟩ := Bool.and_eq_true_iff.mp digit
  have above : '0'.toNat ≤ c.toNat := of_decide_eq_true low
  have below : c.toNat ≤ '9'.toNat := of_decide_eq_true high
  by_contra word
  simp only [startsWord, Bool.not_eq_false, Bool.or_eq_true, Bool.and_eq_true, decide_eq_true_eq] at word
  rcases word with (⟨upper, -⟩ | ⟨lower, -⟩) | rfl
  · have letter : 'A'.toNat ≤ c.toNat := upper
    exact absurd (letter.trans below) (by decide)
  · have letter : 'a'.toNat ≤ c.toNat := lower
    exact absurd (letter.trans below) (by decide)
  · exact absurd above (by decide)

def isWordChar (c : Char) : Bool := isAsciiAlphanumeric c || c = '-'

theorem isWordChar_of_digit (digit : isAsciiDigit c = true) : isWordChar c = true := by
  simp [isWordChar, isAsciiAlphanumeric, digit]

theorem isWordChar_eq (c : Char) : isWordChar c = (isAsciiDigit c || startsWord c) := by
  simp [isWordChar, isAsciiAlphanumeric, startsWord, Bool.or_assoc]

theorem isPrereleasePart_cons (c : Char) (rest : Text) : isPrereleasePart (c :: rest) =
    (isNumericIdentifier (c :: rest) || (startsWord c && rest.all isWordChar)) := rfl

theorem isPrereleasePart_word (formed : isPrereleasePart part = true) : part ≠ [] ∧ ∀ c ∈ part, isWordChar c = true := by
  rcases Bool.or_eq_true_iff.mp formed with numeric | word
  · constructor
    · rintro rfl
      exact absurd numeric (by decide)
    · exact fun c listed => isWordChar_of_digit (mem_of_isNumericIdentifier numeric listed)
  cases part with
  | nil => cases word
  | cons first rest =>
    obtain ⟨start, later⟩ := Bool.and_eq_true_iff.mp word
    refine ⟨cons_ne_nil _ _, ?_⟩
    intro c listed
    rcases mem_cons.mp listed with rfl | listed
    · have word : startsWord c = true := start
      rw [isWordChar_eq, word, Bool.or_true]
    · exact all_eq_true.mp later c listed

theorem isBuildPart_word (formed : isBuildPart part = true) : part ≠ [] ∧ ∀ c ∈ part, isWordChar c = true := by
  obtain ⟨some_, all⟩ := Bool.and_eq_true_iff.mp formed
  exact ⟨of_decide_eq_true some_, all_eq_true.mp all⟩

theorem mem_join (listed : c ∈ join parts) (other : c ≠ '.') : ∃ part ∈ parts, c ∈ part :=
  (Split.mem_intercalate listed).resolve_left other

theorem join_ne_nil (some_ : parts ≠ []) (filled : ∀ part ∈ parts, part ≠ []) : join parts ≠ [] := by
  intro empty
  cases parts with
  | nil => exact some_ rfl
  | cons first rest =>
    have head := filled first (by simp)
    cases rest with
    | nil => exact head (by simpa [join, List.intercalate] using empty)
    | cons second rest => simp [join, List.intercalate, head] at empty

theorem splitOn_join (some_ : parts ≠ []) (free : ∀ part ∈ parts, '.' ∉ part) : (join parts).splitOn '.' = parts :=
  splitOn_intercalate '.' free some_

theorem join_splitOn (text : Text) : join (text.splitOn '.') = text := intercalate_splitOn '.'
end

variable {wellFormed : Text → Bool} {parts : List Text} {c : Char} {origInput text : Text}

def signed (parts : List Text) : Option Text := if parts ≠ [] then some (join parts) else none

theorem identifiersOr_signed (origInput : Text)
    (formed : parts ≠ [] → wellFormed (join parts) = true) (free : ∀ part ∈ parts, '.' ∉ part) :
    identifiersOr origInput wellFormed (signed parts) = .ok parts := by
  by_cases none : parts = []
  · rw [signed, if_neg (by simpa using none), none]
    rfl
  · rw [signed, if_pos none]
    simp [identifiersOr, formed none, splitOn_join none free]

variable {p : Pieces}

section
variable (accepted : p.Accepted)
include accepted

theorem Pieces.Accepted.isPrerelease_join (some_ : p.prerelease ≠ [])
    (free : ∀ part ∈ p.prerelease, '.' ∉ part) : isPrerelease (join p.prerelease) = true := by
  have filled := join_ne_nil some_ fun part listed => (isPrereleasePart_word (accepted.prerelease part listed)).1
  unfold isPrerelease
  rw [splitOn_join some_ free]
  simpa [filled] using accepted.prerelease

theorem Pieces.Accepted.isBuild_join (some_ : p.build ≠ [])
    (free : ∀ part ∈ p.build, '.' ∉ part) : isBuild (join p.build) = true := by
  have filled := join_ne_nil some_ fun part listed => (isBuildPart_word (accepted.build part listed)).1
  unfold isBuild
  rw [splitOn_join some_ free]
  simpa [filled] using accepted.build

theorem Pieces.Accepted.core_free (other : isAsciiDigit c = false) (undotted : c ≠ '.') : c ∉ join p.core := by
  intro listed
  obtain ⟨part, member, inside⟩ := mem_join listed undotted
  exact isAsciiDigit_not (mem_of_isNumericIdentifier (accepted.core part member).1 inside) other rfl

theorem Pieces.Accepted.prerelease_free (other : isWordChar c = false) : ∀ part ∈ p.prerelease, c ∉ part := by
  intro part member inside
  have word := (isPrereleasePart_word (accepted.prerelease part member)).2 c inside
  cases word.symm.trans other

theorem Pieces.Accepted.build_free (other : isWordChar c = false) : ∀ part ∈ p.build, c ∉ part := by
  intro part member inside
  have word := (isBuildPart_word (accepted.build part member)).2 c inside
  cases word.symm.trans other
end

theorem join_free (undotted : c ≠ '.') (free : ∀ part ∈ parts, c ∉ part) : c ∉ join parts := by
  intro listed
  obtain ⟨part, member, inside⟩ := mem_join listed undotted
  exact free part member inside

theorem Pieces.Accepted.splits (accepted : p.Accepted) (origInput : Text) :
    ∃ versionPart, splitOnce p.text '+' origInput = .ok (versionPart, signed p.build) ∧
      splitOnceFirst versionPart '-' origInput = .ok (join p.core, signed p.prerelease) := by
  have plus : '+' ∉ join p.core := accepted.core_free (by decide) (by decide)
  have minus : '-' ∉ join p.core := accepted.core_free (by decide) (by decide)
  have plus' : '+' ∉ join p.prerelease := join_free (by decide) (accepted.prerelease_free (by decide))
  have plus'' : '+' ∉ join p.build := join_free (by decide) (accepted.build_free (by decide))
  refine ⟨join p.core ++ (if p.prerelease ≠ [] then '-' :: join p.prerelease else []), ?_, ?_⟩
  · have free : '+' ∉ join p.core ++ (if p.prerelease ≠ [] then '-' :: join p.prerelease else []) := by
      split
      · simp [plus, plus']
      · simp [plus]
    by_cases none : p.build = []
    · simp only [Pieces.text, signed, none, ne_eq, not_true_eq_false, if_false, append_nil]
      exact splitOnce_none origInput free
    · have filled := join_ne_nil none fun part listed => (isBuildPart_word (accepted.build part listed)).1
      simp only [Pieces.text, signed, none, ne_eq, not_false_eq_true, if_true]
      exact splitOnce_some origInput free filled plus''
  · by_cases none : p.prerelease = []
    · simp only [signed, none, ne_eq, not_true_eq_false, if_false, append_nil]
      exact splitOnceFirst_none origInput minus
    · have filled := join_ne_nil none fun part listed => (isPrereleasePart_word (accepted.prerelease part listed)).1
      simp only [signed, none, ne_eq, not_false_eq_true, if_true]
      exact splitOnceFirst_some origInput minus filled

theorem signed_isSome (parts : List Text) : (signed parts).isSome = !decide (parts = []) := by
  unfold signed
  split <;> simp_all

theorem uintOr_core {part : Text} (numeric : isNumericIdentifier part = true)
    (fits : numberOf part < 2 ^ 32) : uintOr origInput part = .ok (numberOf part) :=
  (uintOr_ok numeric).mpr ⟨fits, rfl⟩

theorem tryParseVersion_text (accepted : p.Accepted) : tryParseVersion p.text = .ok p.version := by
  obtain ⟨versionPart, first, second⟩ := accepted.splits p.text
  have dots : ∀ part ∈ p.core, '.' ∉ part := by
    intro part member inside
    exact absurd (mem_of_isNumericIdentifier (accepted.core part member).1 inside) (by decide)
  have coreParts : (join p.core).splitOn '.' = p.core := splitOn_join accepted.some_ dots
  have numeric : (p.core.any fun part => !isUintComponent part) = false := by
    rw [any_eq_false]
    intro part member
    simp [isUintComponent, (accepted.core part member).1]
  have number : ∀ part ∈ p.core, uintOr p.text part = .ok (numberOf part) := fun part member =>
    uintOr_core (accepted.core part member).1 (accepted.core part member).2
  have pre := identifiersOr_signed p.text
    (fun some_ => accepted.isPrerelease_join some_ (accepted.prerelease_free (by decide)))
    (accepted.prerelease_free (c := '.') (by decide))
  have build := identifiersOr_signed p.text
    (fun some_ => accepted.isBuild_join some_ (accepted.build_free (by decide)))
    (accepted.build_free (c := '.') (by decide))
  unfold tryParseVersion
  simp only [first, second, coreParts, numeric, signed_isSome, pre, build, bind, Except.bind, pure, Except.pure]
  have few := accepted.few
  have whole := accepted.whole
  unfold Pieces.version
  match core : p.core with
  | [] => exact absurd core accepted.some_
  | [a] =>
    rw [core] at number whole
    obtain ⟨noPrerelease, noBuild⟩ := whole (by simp)
    simp [noPrerelease, noBuild, number, numberOf, valueOf]
  | [a, b] =>
    rw [core] at number whole
    obtain ⟨noPrerelease, noBuild⟩ := whole (by simp)
    simp [noPrerelease, noBuild, number, numberOf, valueOf]
  | [a, b, c] =>
    rw [core] at number
    simp [number]
  | a :: b :: c :: d :: rest =>
    rw [core] at few
    simp only [length_cons] at few
    omega

theorem bind_ok_iff {ε α β : Type} {x : Except ε α} {f : α → Except ε β} {b : β} :
    (x >>= f) = .ok b ↔ ∃ a, x = .ok a ∧ f a = .ok b := by
  cases x with
  | error e => simp [bind, Except.bind]
  | ok a => simp [bind, Except.bind]

theorem identifiersOr_text {whole before : Text} {sign : Char} {formed : Text → Bool}
    {text : Option Text} (accepted : identifiersOr origInput wellFormed text = .ok parts)
    (shape : (text = none ∧ whole = before) ∨ ∃ t, text = some t ∧ t ≠ [] ∧ whole = before ++ sign :: t)
    (each : ∀ t, wellFormed t = true → (t.splitOn '.').all formed = true) :
    whole = before ++ (if parts ≠ [] then sign :: join parts else []) ∧ (∀ part ∈ parts, formed part = true) ∧
      (text = none → parts = []) := by
  rcases identifiersOr_ok accepted with ⟨rfl, rfl⟩ | ⟨t, rfl, well, rfl⟩
  · rcases shape with ⟨-, same⟩ | ⟨t, found, -⟩
    · simp [same]
    · cases found
  rcases shape with ⟨none, -⟩ | ⟨u, found, -, same⟩
  · cases none
  · cases found
    rw [if_pos (splitOn_ne_nil '.' t), join_splitOn]
    exact ⟨same, all_eq_true.mp (each t well), fun none => by cases none⟩

theorem core_ok {core : List Text} {major minor patch : Nat} (some_ : core ≠ []) (few : core.length ≤ 3)
    (numeric : ∀ part ∈ core, isNumericIdentifier part = true) (first : uintOr text (core.headD []) = .ok major)
    (second : (if core.length > 1 then uintOr text (core.getD 1 []) else pure 0) = .ok minor)
    (third : (if core.length > 2 then uintOr text (core.getD 2 []) else pure 0) = .ok patch) :
    (∀ part ∈ core, numberOf part < 2 ^ 32) ∧ numberOf (core.getD 0 []) = major ∧
      numberOf (core.getD 1 []) = minor ∧ numberOf (core.getD 2 []) = patch := by
  match core with
  | [] => exact absurd rfl some_
  | [a] =>
    obtain ⟨fits, rfl⟩ := (uintOr_ok (numeric a (by simp))).mp first
    cases second
    cases third
    exact ⟨by simpa using fits, rfl, rfl, rfl⟩
  | [a, b] =>
    obtain ⟨fits, rfl⟩ := (uintOr_ok (numeric a (by simp))).mp first
    obtain ⟨fits', rfl⟩ := (uintOr_ok (numeric b (by simp))).mp second
    cases third
    exact ⟨by simpa using ⟨fits, fits'⟩, rfl, rfl, rfl⟩
  | [a, b, c] =>
    obtain ⟨fits, rfl⟩ := (uintOr_ok (numeric a (by simp))).mp first
    obtain ⟨fits', rfl⟩ := (uintOr_ok (numeric b (by simp))).mp second
    obtain ⟨fits'', rfl⟩ := (uintOr_ok (numeric c (by simp))).mp third
    exact ⟨by simpa using ⟨fits, fits', fits''⟩, rfl, rfl, rfl⟩
  | a :: b :: c :: d :: rest =>
    simp only [length_cons] at few
    omega

theorem tryParseVersion_ok {v : Version} (parsed : tryParseVersion text = .ok v) :
    ∃ p : Pieces, p.Accepted ∧ p.text = text ∧ p.version = v := by
  obtain ⟨⟨versionPart, buildStr⟩, first, parsed⟩ := bind_ok_iff.mp parsed
  obtain ⟨⟨corePart, prereleaseStr⟩, second, parsed⟩ := bind_ok_iff.mp parsed
  dsimp only at second parsed
  split at parsed
  · cases parsed
  rename_i few
  split at parsed
  · cases parsed
  rename_i numeric
  split at parsed
  · cases parsed
  rename_i whole
  have numeric' : ∀ part ∈ corePart.splitOn '.', isNumericIdentifier part = true := by
    simpa [isUintComponent] using numeric
  obtain ⟨major, majorRead, parsed⟩ := bind_ok_iff.mp parsed
  have rest : ∃ minor patch prerelease build,
      (if (corePart.splitOn '.').length > 1 then uintOr text ((corePart.splitOn '.').getD 1 []) else pure 0) = .ok minor ∧
      (if (corePart.splitOn '.').length > 2 then uintOr text ((corePart.splitOn '.').getD 2 []) else pure 0) = .ok patch ∧
      identifiersOr text isPrerelease prereleaseStr = .ok prerelease ∧
      identifiersOr text isBuild buildStr = .ok build ∧ v = ⟨major, minor, patch, prerelease, build⟩ := by
    split at parsed
    · rename_i two
      obtain ⟨minor, minorRead, parsed⟩ := bind_ok_iff.mp parsed
      split at parsed
      · rename_i three
        obtain ⟨patch, patchRead, parsed⟩ := bind_ok_iff.mp parsed
        obtain ⟨prerelease, prereleaseRead, parsed⟩ := bind_ok_iff.mp parsed
        obtain ⟨build, buildRead, parsed⟩ := bind_ok_iff.mp parsed
        cases parsed
        exact ⟨minor, patch, prerelease, build, (if_pos two).trans minorRead, (if_pos three).trans patchRead,
          prereleaseRead, buildRead, rfl⟩
      rename_i three
      obtain ⟨patch, patchRead, parsed⟩ := bind_ok_iff.mp parsed
      cases patchRead
      obtain ⟨prerelease, prereleaseRead, parsed⟩ := bind_ok_iff.mp parsed
      obtain ⟨build, buildRead, parsed⟩ := bind_ok_iff.mp parsed
      cases parsed
      exact ⟨minor, 0, prerelease, build, (if_pos two).trans minorRead, if_neg three, prereleaseRead, buildRead, rfl⟩
    · rename_i two
      obtain ⟨minor, minorRead, parsed⟩ := bind_ok_iff.mp parsed
      cases minorRead
      split at parsed
      · omega
      rename_i three
      obtain ⟨patch, patchRead, parsed⟩ := bind_ok_iff.mp parsed
      cases patchRead
      obtain ⟨prerelease, prereleaseRead, parsed⟩ := bind_ok_iff.mp parsed
      obtain ⟨build, buildRead, parsed⟩ := bind_ok_iff.mp parsed
      cases parsed
      exact ⟨0, 0, prerelease, build, if_neg two, if_neg three, prereleaseRead, buildRead, rfl⟩
  obtain ⟨minor, patch, prerelease, build, minorRead, patchRead, prereleaseRead, buildRead, rfl⟩ := rest
  obtain ⟨fits, values⟩ := core_ok (splitOn_ne_nil '.' corePart) (by omega) numeric' majorRead
    minorRead patchRead
  obtain ⟨buildText, buildParts, noBuild⟩ := identifiersOr_text buildRead (splitOnce_ok first)
    (fun t well => (Bool.and_eq_true_iff.mp well).2)
  obtain ⟨prereleaseText, prereleaseParts, noPrerelease⟩ := identifiersOr_text prereleaseRead (splitOnceFirst_ok second)
    (fun t well => (Bool.and_eq_true_iff.mp well).2)
  refine ⟨⟨corePart.splitOn '.', prerelease, build⟩, ?_, ?_, ?_⟩
  · refine ⟨splitOn_ne_nil '.' corePart, Nat.le_of_not_lt fun long => few (.inr long), ?_, ?_, prereleaseParts,
      buildParts⟩
    · intro short
      have neither : prereleaseStr = none ∧ buildStr = none := by simpa [short] using whole
      exact ⟨noPrerelease neither.1, noBuild neither.2⟩
    · exact fun part listed => ⟨numeric' part listed, fits part listed⟩
  · rw [buildText, prereleaseText]
    simp only [Pieces.text, join_splitOn]
  · simp only [Pieces.version, values]

end TypeScriptRs.Semver
