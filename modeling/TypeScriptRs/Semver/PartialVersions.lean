import TypeScriptRs.Semver.Parsing
import TypeScriptRs.Semver.Range

/-! What the range parser accepts as a partial version, in terms of its parts. -/
namespace TypeScriptRs.Semver
open Decimal List

variable {text : Text}

/-- Identifiers as they follow a sign: some of them may be empty, all of their text is not. -/
def Qualifier (parts : List Text) : Prop := parts ≠ [[]] ∧ ∀ part ∈ parts, ∀ c ∈ part, isWordChar c = true

def leading (core : List Text) : List Text := core.takeWhile fun part => !isWildcard part

def Pieces.Fits (p : Pieces) : Prop := ∀ part ∈ leading p.core, numberOf part < 2 ^ 32

structure Pieces.Shaped (p : Pieces) : Prop where
  some_ : p.core ≠ []
  few : p.core.length ≤ 3
  whole : p.core.length < 3 → p.prerelease = [] ∧ p.build = []
  core : ∀ part ∈ p.core, isXr part = true
  prerelease : Qualifier p.prerelease
  build : Qualifier p.build

def Pieces.majorStr (p : Pieces) : Text := p.core.headD []
def Pieces.minorStr (p : Pieces) : Text := p.core.getD 1 ['*']
def Pieces.patchStr (p : Pieces) : Text := p.core.getD 2 ['*']

def Pieces.partialVersion (p : Pieces) (numbers : Nat × Nat × Nat) : PartialVersion where
  version := ⟨numbers.1, numbers.2.1, numbers.2.2, p.prerelease, p.build⟩
  majorStr := p.majorStr
  minorStr := p.minorStr
  patchStr := p.patchStr

section
variable {part : Text} {c : Char}

theorem isWildcard_iff : isWildcard part = true ↔ part = ['*'] ∨ part = ['x'] ∨ part = ['X'] := by
  unfold isWildcard
  simp only [Bool.or_eq_true, decide_eq_true_eq, or_assoc]

theorem isXr_iff : isXr part = true ↔ isWildcard part = true ∨ isNumericIdentifier part = true := by
  unfold isXr isUintComponent
  rw [Bool.or_eq_true]

theorem mem_of_isXr (xr : isXr part = true) (listed : c ∈ part) : c = '*' ∨ c = 'x' ∨ c = 'X' ∨ isAsciiDigit c = true := by
  rcases isXr_iff.mp xr with wild | numeric
  · rcases isWildcard_iff.mp wild with rfl | rfl | rfl
    · exact .inl (mem_singleton.mp listed)
    · exact .inr (.inl (mem_singleton.mp listed))
    · exact .inr (.inr (.inl (mem_singleton.mp listed)))
  · exact .inr (.inr (.inr (mem_of_isNumericIdentifier numeric listed)))

theorem not_mem_of_isXr (xr : isXr part = true) (star : c ≠ '*') (small : c ≠ 'x')
    (capital : c ≠ 'X') (other : isAsciiDigit c = false) : c ∉ part := by
  intro listed
  rcases mem_of_isXr xr listed with same | same | same | digit
  · exact star same
  · exact small same
  · exact capital same
  · cases digit.symm.trans other

theorem isXr_ne_nil (xr : isXr part = true) : part ≠ [] := by
  rintro rfl
  exact absurd xr (by decide)
end

section
theorem qualifier_nil : Qualifier [] := ⟨by simp, by rintro _ ⟨⟩⟩

theorem splitOn_eq_empty {text : Text} (empty : text.splitOn '.' = [[]]) : text = [] := by
  rw [← join_splitOn text, empty]
  rfl

theorem qualifier_of_list {text : Text} (accepted : isQualifierPartList text = true) : Qualifier (text.splitOn '.') := by
  obtain ⟨some_, all⟩ := Bool.and_eq_true_iff.mp accepted
  refine ⟨fun empty => of_decide_eq_true some_ (splitOn_eq_empty empty), ?_⟩
  intro part listed c inside
  have char := all_eq_true.mp all c (Split.mem_of_mem_splitOn listed inside)
  rcases Bool.or_eq_true_iff.mp char with word | dot
  · exact word
  · rw [of_decide_eq_true dot] at inside
    exact absurd inside (Split.not_mem_of_mem_splitOn listed)

variable {parts : List Text}

theorem Qualifier.free (qualifier : Qualifier parts) {c : Char} (other : isWordChar c = false) : ∀ part ∈ parts, c ∉ part := by
  intro part listed inside
  cases (qualifier.2 part listed c inside).symm.trans other

theorem Qualifier.join_ne_nil (qualifier : Qualifier parts) (some_ : parts ≠ []) : join parts ≠ [] := by
  intro empty
  have back := splitOn_join some_ (qualifier.free (c := '.') (by decide))
  rw [empty] at back
  exact qualifier.1 back.symm

theorem Qualifier.accepted (qualifier : Qualifier parts) (some_ : parts ≠ []) : isQualifierPartList (join parts) = true := by
  refine Bool.and_eq_true_iff.mpr ⟨decide_eq_true (qualifier.join_ne_nil some_), all_eq_true.mpr ?_⟩
  intro c listed
  by_cases dot : c = '.'
  · simp [dot]
  · obtain ⟨part, member, inside⟩ := mem_join listed dot
    have word := qualifier.2 part member c inside
    unfold isWordChar at word
    rw [word, Bool.true_or]

theorem qualifierParts_signed (free : ∀ part ∈ parts, '.' ∉ part) : qualifierParts (signed parts) = parts := by
  unfold qualifierParts signed
  split
  · rename_i some_
    exact splitOn_join some_ free
  · rename_i none
    simpa using (not_not.mp none).symm
end

section
variable {text before after : Text} {delimiter : Char}

theorem splitOptional_none (free : delimiter ∉ text) : splitOptional text delimiter = some (text, none) := by
  unfold splitOptional
  rw [splitOn_eq_singleton free]

theorem splitOptional_some (free : delimiter ∉ before) (only : delimiter ∉ after) (list : isQualifierPartList after = true) :
    splitOptional (before ++ delimiter :: after) delimiter = some (before, some after) := by
  have some_ : after ≠ [] := of_decide_eq_true (Bool.and_eq_true_iff.mp list).1
  unfold splitOptional
  rw [splitOn_append_cons_self_of_not_mem free, splitOn_eq_singleton only]
  simp [some_, list]

theorem splitOptional_eq {after : Option Text} (accepted : splitOptional text delimiter = some (before, after)) :
    (after = none ∧ text = before) ∨
      ∃ t, after = some t ∧ isQualifierPartList t = true ∧ text = before ++ delimiter :: t := by
  have whole : [delimiter].intercalate (text.splitOn delimiter) = text := intercalate_splitOn delimiter
  unfold splitOptional at accepted
  split at accepted
  · rename_i b pieces
    cases accepted
    rw [pieces] at whole
    exact .inl ⟨rfl, by simpa using whole.symm⟩
  · rename_i b a pieces
    split at accepted
    · cases accepted
    rename_i fine
    cases accepted
    rw [pieces] at whole
    exact .inr ⟨a, rfl, by simpa using (not_or.mp (mt Bool.or_eq_true_iff.mpr fine)).2,
      by simpa [List.intercalate] using whole.symm⟩
  · cases accepted

theorem splitOptionalFirst_none (free : delimiter ∉ text) : splitOptionalFirst text delimiter = some (text, none) := by
  unfold splitOptionalFirst
  rw [if_neg free]

theorem splitOptionalFirst_some (free : delimiter ∉ before) (list : isQualifierPartList after = true) :
    splitOptionalFirst (before ++ delimiter :: after) delimiter = some (before, some after) := by
  have some_ : after ≠ [] := of_decide_eq_true (Bool.and_eq_true_iff.mp list).1
  unfold splitOptionalFirst
  rw [if_pos (by simp), Split.takeWhile_append_cons free, Split.dropWhile_append_cons free]
  simp [some_, list]

theorem splitOptionalFirst_eq {after : Option Text}
    (accepted : splitOptionalFirst text delimiter = some (before, after)) : (after = none ∧ text = before) ∨
      ∃ t, after = some t ∧ isQualifierPartList t = true ∧ text = before ++ delimiter :: t := by
  unfold splitOptionalFirst at accepted
  split at accepted
  · rename_i here
    dsimp only at accepted
    split at accepted
    · cases accepted
    · rename_i fine
      cases accepted
      exact .inr ⟨_, rfl, by simpa using (not_or.mp (mt Bool.or_eq_true_iff.mpr fine)).2, Split.takeWhile_cut here⟩
  · cases accepted
    exact .inl ⟨rfl, rfl⟩
end

section
variable {p : Pieces} {text : Text} {result : PartialVersion}

theorem Pieces.Shaped.core_free (shaped : p.Shaped) {c : Char} (dot : c ≠ '.') (star : c ≠ '*') (small : c ≠ 'x')
    (capital : c ≠ 'X') (other : isAsciiDigit c = false) : c ∉ join p.core :=
  join_free dot fun part listed => not_mem_of_isXr (shaped.core part listed) star small capital other

theorem Pieces.Shaped.splitOn_core (shaped : p.Shaped) : (join p.core).splitOn '.' = p.core :=
  splitOn_join shaped.some_ fun part listed =>
    not_mem_of_isXr (shaped.core part listed) (by decide) (by decide) (by decide) (by decide)

theorem Pieces.Shaped.readPartial_signs (shaped : p.Shaped) :
    readPartial p.text = partialOf (join p.core) (signed p.prerelease) (signed p.build) := by
  have plus : '+' ∉ join p.core := shaped.core_free (by decide) (by decide) (by decide) (by decide) (by decide)
  have minus : '-' ∉ join p.core := shaped.core_free (by decide) (by decide) (by decide) (by decide) (by decide)
  have plus' : '+' ∉ join p.prerelease := join_free (by decide) (shaped.prerelease.free (by decide))
  have plus'' : '+' ∉ join p.build := join_free (by decide) (shaped.build.free (by decide))
  have free : '+' ∉ join p.core ++ (if p.prerelease ≠ [] then '-' :: join p.prerelease else []) := by
    split
    · simp [plus, plus']
    · simp [plus]
  have first : splitOptional p.text '+' =
      some (join p.core ++ (if p.prerelease ≠ [] then '-' :: join p.prerelease else []), signed p.build) := by
    by_cases none : p.build = []
    · simp only [Pieces.text, signed, none, ne_eq, not_true_eq_false, if_false, append_nil]
      exact splitOptional_none free
    · simp only [Pieces.text, signed, none, ne_eq, not_false_eq_true, if_true]
      exact splitOptional_some free plus'' (shaped.build.accepted none)
  have second : splitOptionalFirst (join p.core ++ (if p.prerelease ≠ [] then '-' :: join p.prerelease else [])) '-' =
      some (join p.core, signed p.prerelease) := by
    by_cases none : p.prerelease = []
    · simp only [signed, none, ne_eq, not_true_eq_false, if_false, append_nil]
      exact splitOptionalFirst_none minus
    · simp only [signed, none, ne_eq, not_false_eq_true, if_true]
      exact splitOptionalFirst_some minus (shaped.prerelease.accepted none)
  unfold readPartial
  rw [first, Option.bind_some, second, Option.bind_some]

theorem Pieces.Shaped.readPartial_text (shaped : p.Shaped) :
    readPartial p.text = (coreNumbers p.majorStr p.minorStr p.patchStr).map p.partialVersion := by
  have parts : (p.core.any fun part => !isXr part) = false := by
    rw [any_eq_false]
    intro part listed
    simp [shaped.core part listed]
  have whole : (decide (p.core.length < 3) && ((signed p.prerelease).isSome || (signed p.build).isSome)) = false := by
    by_cases short : p.core.length < 3
    · obtain ⟨none, none'⟩ := shaped.whole short
      simp [none, none', signed]
    · simp [short]
  have dots := shaped.prerelease.free (c := '.') (by decide)
  have dots' := shaped.build.free (c := '.') (by decide)
  rw [shaped.readPartial_signs]
  unfold partialOf
  simp only [shaped.splitOn_core, parts, whole, shaped.some_, shaped.few.not_gt, qualifierParts_signed dots,
    qualifierParts_signed dots', decide_false, Bool.or_self, Bool.false_eq_true, if_false]
  rfl

theorem qualifier_of_split {before : Text} {sign : Char} {after : Option Text} (shape : (after = none ∧ text = before) ∨
      ∃ t, after = some t ∧ isQualifierPartList t = true ∧ text = before ++ sign :: t) :
    Qualifier (qualifierParts after) ∧ (after = none → qualifierParts after = []) ∧
      text = before ++ (if qualifierParts after ≠ [] then sign :: join (qualifierParts after) else []) := by
  rcases shape with ⟨rfl, rfl⟩ | ⟨t, rfl, list, rfl⟩
  · exact ⟨qualifier_nil, fun _ => rfl, (append_nil _).symm⟩
  · have parts : qualifierParts (some t) = t.splitOn '.' := rfl
    rw [parts, if_pos (splitOn_ne_nil '.' t), join_splitOn]
    exact ⟨qualifier_of_list list, by rintro ⟨⟩, rfl⟩

theorem exists_pieces (read : readPartial text = some result) : ∃ p : Pieces, p.Shaped ∧ p.text = text := by
  obtain ⟨⟨versionPart, buildStr⟩, first, read⟩ := Option.bind_eq_some_iff.mp read
  obtain ⟨⟨corePart, prereleaseStr⟩, second, read⟩ := Option.bind_eq_some_iff.mp read
  obtain ⟨build, noBuild, buildText⟩ := qualifier_of_split (splitOptional_eq first)
  obtain ⟨prerelease, noPrerelease, prereleaseText⟩ := qualifier_of_split (splitOptionalFirst_eq second)
  unfold partialOf at read
  dsimp only at read prereleaseText
  split at read
  · cases read
  rename_i core
  split at read
  · cases read
  rename_i whole
  simp only [Bool.or_eq_true, decide_eq_true_eq, not_or, any_eq_true, not_exists, not_and, Bool.not_eq_true',
    Bool.not_eq_false] at core
  refine ⟨⟨corePart.splitOn '.', qualifierParts prereleaseStr, qualifierParts buildStr⟩,
    ⟨splitOn_ne_nil '.' corePart, Nat.le_of_not_lt core.1.2, ?_, core.2, prerelease, build⟩, ?_⟩
  · intro short
    have neither : prereleaseStr = none ∧ buildStr = none := by simpa [short] using whole
    exact ⟨noPrerelease neither.1, noBuild neither.2⟩
  · rw [buildText, prereleaseText]
    simp only [Pieces.text, join_splitOn]

theorem readPartial_eq_some : readPartial text = some result ↔ ∃ p : Pieces, p.Shaped ∧ p.text = text ∧
      ∃ numbers, coreNumbers p.majorStr p.minorStr p.patchStr = some numbers ∧ p.partialVersion numbers = result := by
  constructor
  · intro read
    obtain ⟨p, shaped, rfl⟩ := exists_pieces read
    rw [shaped.readPartial_text] at read
    exact ⟨p, shaped, rfl, Option.map_eq_some_iff.mp read⟩
  · rintro ⟨p, shaped, rfl, found⟩
    rw [shaped.readPartial_text]
    exact Option.map_eq_some_iff.mpr found
end

section
variable {p : Pieces}

theorem getUintComponent_isSome {part : Text} (xr : isXr part = true) (solid : isWildcard part = false) :
    (getUintComponent part).isSome = true ↔ numberOf part < 2 ^ 32 := by
  have numeric := (isXr_iff.mp xr).resolve_left (by simp [solid])
  rw [getUintComponent_numeric numeric]
  unfold numberOf
  split
  · rename_i fits
    exact iff_of_true rfl fits
  · rename_i wide
    exact iff_of_false Bool.false_ne_true wide

theorem coreNumbers_isSome {major minor patch : Text} (xr : isXr major = true) (xr' : isXr minor = true)
    (xr'' : isXr patch = true) : (coreNumbers major minor patch).isSome = true ↔
      ∀ part ∈ leading [major, minor, patch], numberOf part < 2 ^ 32 := by
  unfold coreNumbers leading
  cases wild : isWildcard major with
  | true => simp [wild]
  | false =>
    have first := getUintComponent_isSome xr wild
    cases wild' : isWildcard minor with
    | true =>
      cases found : getUintComponent major <;> simp [-Nat.reducePow, wild, wild', ← first, found]
    | false =>
      have second := getUintComponent_isSome xr' wild'
      cases wild'' : isWildcard patch with
      | true =>
        cases found : getUintComponent major <;> cases found' : getUintComponent minor <;>
          simp [-Nat.reducePow, wild, wild', wild'', ← first, ← second, found, found']
      | false =>
        have third := getUintComponent_isSome xr'' wild''
        cases found : getUintComponent major <;> cases found' : getUintComponent minor <;>
          simp [-Nat.reducePow, wild, wild', wild'', ← first, ← second, ← third, found, found']

theorem leading_getD {core : List Text} (some_ : core ≠ []) (few : core.length ≤ 3) :
    leading [core.headD [], core.getD 1 ['*'], core.getD 2 ['*']] = leading core := by
  have star : isWildcard ['*'] = true := by decide
  rcases core with _ | ⟨a, _ | ⟨b, _ | ⟨c, _ | ⟨d, rest⟩⟩⟩⟩
  · exact absurd rfl some_
  · simp [leading, takeWhile_cons, star]
  · simp [leading, takeWhile_cons, star]
  · rfl
  · simp only [length_cons] at few
    omega

theorem isXr_getD {core : List Text} (each : ∀ part ∈ core, isXr part = true) (i : Nat) : isXr (core.getD i ['*']) = true := by
  by_cases there : i < core.length
  · rw [getD_eq_getElem?_getD, List.getElem?_eq_getElem there]
    exact each _ (getElem_mem there)
  · rw [getD_eq_getElem?_getD, List.getElem?_eq_none (Nat.le_of_not_lt there)]
    decide

theorem Pieces.Shaped.isXr_majorStr (shaped : p.Shaped) : isXr p.majorStr = true := by
  obtain ⟨first, rest, core⟩ := exists_cons_of_ne_nil shaped.some_
  have listed : first ∈ p.core := by simp [core]
  unfold Pieces.majorStr
  rw [core]
  exact shaped.core first listed

theorem Pieces.Shaped.coreNumbers_isSome (shaped : p.Shaped) :
    (coreNumbers p.majorStr p.minorStr p.patchStr).isSome = true ↔ p.Fits := by
  have parts := Semver.coreNumbers_isSome shaped.isXr_majorStr (isXr_getD shaped.core 1) (isXr_getD shaped.core 2)
  unfold Pieces.majorStr at parts
  rw [leading_getD shaped.some_ shaped.few] at parts
  exact parts
end

theorem readPartial_isSome : (readPartial text).isSome = true ↔ ∃ p : Pieces, p.Shaped ∧ p.Fits ∧ p.text = text := by
  constructor
  · intro read
    obtain ⟨result, found⟩ := Option.isSome_iff_exists.mp read
    obtain ⟨p, shaped, same, numbers, some_, -⟩ := readPartial_eq_some.mp found
    exact ⟨p, shaped, shaped.coreNumbers_isSome.mp (by rw [some_]; rfl), same⟩
  · rintro ⟨p, shaped, fits, rfl⟩
    rw [shaped.readPartial_text, Option.isSome_map]
    exact shaped.coreNumbers_isSome.mpr fits

theorem parsePartial_ok : (parsePartial text).2 = (readPartial text).isSome := by
  unfold parsePartial
  cases readPartial text with
  | none => rfl
  | some result => rfl

theorem parsePartial_of_some {result : PartialVersion} (read : readPartial text = some result) :
    parsePartial text = (result, true) := by
  unfold parsePartial
  rw [read]

theorem parsePartial_of_none (read : readPartial text = none) : parsePartial text = (partialVersionDefault, false) := by
  unfold parsePartial
  rw [read]

end TypeScriptRs.Semver
