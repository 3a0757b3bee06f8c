import TypeScriptRs.Semver.Precedence
import TypeScriptRs.Semver.RangeReading

/-! What an operator before a partial version tests. -/
namespace TypeScriptRs.Semver
open Machine Decimal List

section
variable {p : Pieces} {c : Char} {text : Text}

theorem isAtomChar_of_isWordChar (word : isWordChar c = true) : isAtomChar c = true := by
  unfold isWordChar at word
  simp only [isAtomChar, word, Bool.true_or]

theorem isAtomChar_of_isXr {part : Text} (xr : isXr part = true) (listed : c ∈ part) : isAtomChar c = true := by
  rcases mem_of_isXr xr listed with rfl | rfl | rfl | digit
  · decide
  · decide
  · decide
  · exact isAtomChar_of_isWordChar (isWordChar_of_digit digit)

theorem Qualifier.isAtomChar {parts : List Text} (qualifier : Qualifier parts) (listed : c ∈ join parts) :
    isAtomChar c = true := by
  by_cases dot : c = '.'
  · rw [dot]
    decide
  · obtain ⟨part, member, inside⟩ := mem_join listed dot
    exact isAtomChar_of_isWordChar (qualifier.2 part member c inside)

theorem Pieces.Shaped.isAtomChar (shaped : p.Shaped) (listed : c ∈ p.text) : isAtomChar c = true := by
  rcases mem_append.mp listed with front | build
  · rcases mem_append.mp front with core | prerelease
    · by_cases dot : c = '.'
      · rw [dot]
        decide
      · obtain ⟨part, member, inside⟩ := mem_join core dot
        exact isAtomChar_of_isXr (shaped.core part member) inside
    split at prerelease
    · rcases mem_cons.mp prerelease with rfl | inside
      · decide
      · exact shaped.prerelease.isAtomChar inside
    · cases prerelease
  · split at build
    · rcases mem_cons.mp build with rfl | inside
      · decide
      · exact shaped.build.isAtomChar inside
    · cases build

theorem Pieces.Shaped.isRangeAtom (shaped : p.Shaped) : isRangeAtom p.text = true := by
  refine isRangeAtom_iff.mpr ⟨?_, fun c => shaped.isAtomChar⟩
  have core : join p.core ≠ [] := Semver.join_ne_nil shaped.some_ fun part listed => isXr_ne_nil (shaped.core part listed)
  unfold Pieces.text
  simp [core]

theorem isRangeAtom_of_readPartial {result : PartialVersion} (read : readPartial text = some result) :
    isRangeAtom text = true := by
  obtain ⟨p, shaped, rfl⟩ := exists_pieces read
  exact shaped.isRangeAtom

theorem stripOperator_append (operator : ComparatorOperator) (atom : isRangeAtom text = true) :
    stripOperator (operator.asStr ++ text) = (some operator, text) := by
  obtain ⟨some_, all⟩ := isRangeAtom_iff.mp atom
  obtain ⟨c, rest, rfl⟩ := exists_cons_of_ne_nil some_
  have other : c ≠ '=' := by
    rintro rfl
    exact absurd (all '=' (by simp)) (by decide)
  cases operator <;> simp [ComparatorOperator.asStr, stripOperator, other]

theorem dropWhile_atom (atom : isRangeAtom text = true) : text.dropWhile isWhitespace = text := by
  rw [dropWhile_eq_self_iff]
  intro filled
  exact Bool.eq_false_iff.mp (solid_of_isAtomChar ((isRangeAtom_iff.mp atom).2 _ (getElem_mem filled)))

theorem parseRange_operator (operator : ComparatorOperator) (atom : isRangeAtom text = true) :
    parseRange (operator.asStr ++ text) = some (some operator, text) := by
  unfold parseRange
  rw [stripOperator_append operator atom]
  simp [dropWhile_atom atom, (isRangeAtom_iff.mp atom).1, atom]
end

section
variable {text : Text} {result : PartialVersion}

theorem solid_of_asStr {operator : ComparatorOperator} {c : Char} (listed : c ∈ operator.asStr) :
    isWhitespace c = false ∧ c ≠ '|' := by
  have all : ∀ c ∈ operator.asStr, isWhitespace c = false ∧ c ≠ '|' := by cases operator <;> decide
  exact all c listed

theorem isWord_operator (operator : ComparatorOperator) (atom : isRangeAtom text = true) :
    Words.IsWord isWhitespace (operator.asStr ++ text) := by
  obtain ⟨some_, all⟩ := isRangeAtom_iff.mp atom
  refine ⟨by simp [some_], ?_⟩
  intro c listed
  rcases mem_append.mp listed with front | back
  · exact (solid_of_asStr front).1
  · exact solid_of_isAtomChar (all c back)

theorem bar_not_mem (operator : ComparatorOperator) (atom : isRangeAtom text = true) : '|' ∉ operator.asStr ++ text := by
  intro listed
  rcases mem_append.mp listed with front | back
  · exact (solid_of_asStr front).2 rfl
  · exact absurd ((isRangeAtom_iff.mp atom).2 '|' back) (by decide)

theorem rangesOf_word {word : Text} (whole : Words.IsWord isWhitespace word) (free : '|' ∉ word) : rangesOf word = [[word]] := by
  unfold rangesOf splitWhitespace
  rw [Words.splitPair_free free, map_singleton, Words.words_word whole]
  rfl

theorem expansion_operator (operator : ComparatorOperator) (read : readPartial text = some result) :
    (Step.simple (operator.asStr ++ text)).expansion = some (comparatorsOf operator result) := by
  rw [Step.expansion, parseRange_operator operator (isRangeAtom_of_readPartial read)]
  simp [read]

theorem tryParseVersionRange_operator (operator : ComparatorOperator)
    (read : readPartial text = some result) {comparators : List VersionComparator}
    (expands : comparatorsOf operator result = .ok comparators) :
    tryParseVersionRange (operator.asStr ++ text) = .ok (⟨[comparators]⟩, true) := by
  have atom := isRangeAtom_of_readPartial read
  have run : (Step.simple (operator.asStr ++ text)).run = .ok (some comparators) := by
    rw [Step.run, expansion_operator operator read, expands]
    rfl
  rw [tryParseVersionRange_ok, rangesOf_word (isWord_operator operator atom) (bar_not_mem operator atom), runRanges]
  have steps : stepsOf [operator.asStr ++ text] = [.simple (operator.asStr ++ text)] := rfl
  rw [steps, runSteps_singleton, run]
  rfl
end

theorem orderingToComparison_zero (n : Nat) : 0 ≤ orderingToComparison (cmp n 0) := by
  rcases Nat.eq_zero_or_pos n with rfl | positive
  · decide
  · rw [(cmp_eq_gt_iff n 0).mpr positive]
    decide

theorem length_of_overflow {text : Text} (numeric : isNumericIdentifier text = true)
    (wide : getUintComponent text = none) : 1 < text.length := by
  rw [getUintComponent_numeric numeric] at wide
  rcases text with _ | ⟨c, _ | ⟨d, rest⟩⟩
  · exact absurd numeric (by decide)
  · have digit := digitValue_lt (mem_of_isNumericIdentifier numeric (mem_singleton.mpr rfl))
    rw [if_pos] at wide
    · cases wide
    · have value : valueOf ([c].map digitValue) = digitValue c := by simp [valueOf]
      omega
  · simp

theorem comparePreReleaseIdentifier_zero (left : Text) : 0 ≤ comparePreReleaseIdentifier left ['0'] := by
  have zero : isNumericIdentifier ['0'] = true := by decide
  have value : getUintComponent ['0'] = some 0 := by decide
  unfold comparePreReleaseIdentifier
  by_cases same : orderingToComparison (cmp left ['0']) = comparisonEqualTo
  · rw [if_pos same, same]
    decide
  rw [if_neg same, zero, Bool.or_true, if_pos rfl, Bool.not_true, if_neg Bool.false_ne_true, value]
  cases numeric : isNumericIdentifier left with
  | false =>
    rw [Bool.not_false, if_pos rfl]
    decide
  | true =>
    cases number : getUintComponent left with
    | some n => exact orderingToComparison_zero n
    | none =>
      have long : ['0'].length < left.length := length_of_overflow numeric number
      have greater : orderingToComparison .gt ≠ comparisonEqualTo := by decide
      rw [(cmp_eq_gt_iff _ _).mpr long, if_neg greater]
      decide

theorem compareIdentifiers_zero (left : List Text) (some_ : left ≠ []) : 0 ≤ compareIdentifiers left [['0']] := by
  obtain ⟨l, left, rfl⟩ := exists_cons_of_ne_nil some_
  have first : compareIdentifiers (l :: left) [['0']] =
      if comparePreReleaseIdentifier l ['0'] ≠ comparisonEqualTo then comparePreReleaseIdentifier l ['0']
      else compareIdentifiers left [] := rfl
  rw [first]
  split
  · exact comparePreReleaseIdentifier_zero l
  · have lengths : compareIdentifiers left [] = orderingToComparison (cmp left.length 0) := by
      cases left <;> rfl
    rw [lengths]
    exact orderingToComparison_zero _

theorem comparePreReleaseIdentifiers_zero (left : List Text) : 0 ≤ comparePreReleaseIdentifiers left [['0']] := by
  unfold comparePreReleaseIdentifiers
  split
  · decide
  · rename_i some_
    exact compareIdentifiers_zero left some_

theorem thenWith_nonneg {first : Int} {next : Unit → Int} (a : 0 ≤ first) (b : 0 ≤ next ()) : 0 ≤ thenWith first next := by
  unfold thenWith
  split
  · exact a
  · exact b

theorem compare_versionZero (v : Version) : 0 ≤ v.compare (some versionZero) := by
  unfold Version.compare
  refine thenWith_nonneg (orderingToComparison_zero _) ?_
  refine thenWith_nonneg (orderingToComparison_zero _) ?_
  refine thenWith_nonneg (orderingToComparison_zero _) ?_
  exact comparePreReleaseIdentifiers_zero _

section
/-- What the range of a text tells of a version, if the text is accepted. -/
def rangeTest (text : Text) (version : Version) : Outcome (Option Bool) := do
  let parsed ← tryParseVersionRange text
  if parsed.2 then
    let passed ← parsed.1.test version
    pure (some passed)
  else pure none

def Version.Small (v : Version) : Prop := v.major < 2 ^ 32 - 1 ∧ v.minor < 2 ^ 32 - 1 ∧ v.patch < 2 ^ 32 - 1

theorem rangeTest_operator (operator : ComparatorOperator) {text : Text} {result : PartialVersion}
    (read : readPartial text = some result) {comparators : List VersionComparator}
    (expands : comparatorsOf operator result = .ok comparators) {version : Version} {passed : Bool}
    (tested : testAlternative comparators version = .ok passed) :
    rangeTest (operator.asStr ++ text) version = .ok (some passed) := by
  unfold rangeTest
  rw [tryParseVersionRange_operator operator read expands]
  have disjunction : VersionRange.test ⟨[comparators]⟩ version = .ok passed := by
    unfold VersionRange.test testDisjunction
    rw [if_neg (cons_ne_nil _ _), testAny, tested]
    cases passed with
    | false => rfl
    | true => rfl
  simp [Outcome.monad_bind, Outcome.monad_pure, disjunction]

theorem increment_small {n : Nat} (small : n < 2 ^ 32 - 1) : increment n = .ok (n + 1) := by
  exact if_pos (by omega)

theorem nextVersion_small {result : PartialVersion} (small : result.version.Small) : ∃ next, nextVersion result = .ok next := by
  unfold nextVersion Version.incrementMajor Version.incrementMinor
  rw [increment_small small.1, increment_small small.2.1]
  split
  · exact ⟨_, rfl⟩
  · exact ⟨_, rfl⟩

variable {result : PartialVersion} {version : Version}

/-- How a version stands to one with a comparator's operator, for the operators that are tested. -/
def holdsFor (operator : ComparatorOperator) (cmp : Int) : Bool :=
  match operator with
  | .lessThan => cmp < 0
  | .lessThanEqual => cmp ≤ 0
  | .equal => cmp = 0
  | .greaterThanEqual => cmp ≥ 0
  | _ => cmp > 0

theorem testAlternative_one {operator : ComparatorOperator} (plain : operator ≠ .tilde) (plain' : operator ≠ .caret)
    (operand : Version) : testAlternative [⟨operator, operand⟩] version =
      .ok (holdsFor operator (version.compare (some operand))) := by
  have single : ∀ b : Bool, (if !b then Outcome.ok false else Outcome.ok true) = .ok b := by decide
  cases operator with
  | tilde => exact absurd rfl plain
  | caret => exact absurd rfl plain'
  | _ => exact single _

theorem testAlternative_two (low high : Version) : testAlternative [⟨.greaterThanEqual, low⟩, ⟨.lessThan, high⟩] version =
      .ok (decide (version.compare (some low) ≥ 0) && decide (version.compare (some high) < 0)) := by
  have pair : ∀ a b : Bool,
      (if !a then Outcome.ok false else if !b then Outcome.ok false else Outcome.ok true) = .ok (a && b) := by decide
  exact pair _ _

def Complementary (result : PartialVersion) (version : Version) (below atMost : Bool) : Prop :=
  ∃ lt ge le gt eq, comparatorsOf .lessThan result = .ok lt ∧ comparatorsOf .greaterThanEqual result = .ok ge ∧
    comparatorsOf .lessThanEqual result = .ok le ∧ comparatorsOf .greaterThan result = .ok gt ∧
    comparatorsOf .equal result = .ok eq ∧ testAlternative lt version = .ok below ∧
    testAlternative ge version = .ok (!below) ∧ testAlternative le version = .ok atMost ∧
    testAlternative gt version = .ok (!atMost) ∧ testAlternative eq version = .ok (!below && atMost)

theorem not_decide_neg (n : Int) : (!decide (n < 0)) = decide (n ≥ 0) := by
  rw [← decide_not]
  exact decide_eq_decide.mpr Int.not_lt

theorem not_decide_le (n : Int) : (!decide (n ≤ 0)) = decide (n > 0) := by
  rw [← decide_not]
  exact decide_eq_decide.mpr Int.not_le

theorem and_decide_le (n : Int) : (decide (n ≥ 0) && decide (n ≤ 0)) = decide (n = 0) := by
  rw [← Bool.decide_and]
  exact decide_eq_decide.mpr (by omega)

theorem complementary_wild (wild : isWildcard result.majorStr = true) : Complementary result version false true := by
  have zero := compare_versionZero version
  refine ⟨[⟨.lessThan, versionZero⟩], [], [], [⟨.lessThan, versionZero⟩], [], ?_⟩
  rw [testAlternative_one (by decide) (by decide)]
  have never : holdsFor .lessThan (version.compare (some versionZero)) = false := decide_eq_false (by omega)
  rw [never]
  simp [comparatorsOf, wild, testAlternative, Outcome.monad_pure]

theorem complementary_number (solid : isWildcard result.majorStr = false) (small : result.version.Small) :
    ∃ below atMost, Complementary result version below atMost := by
  cases open_ : isWildcard result.minorStr || isWildcard result.patchStr with
  | false =>
    refine ⟨decide (version.compare (some result.version) < 0), decide (version.compare (some result.version) ≤ 0),
      [⟨.lessThan, result.version⟩], [⟨.greaterThanEqual, result.version⟩], [⟨.lessThanEqual, result.version⟩],
      [⟨.greaterThan, result.version⟩], [⟨.equal, result.version⟩], ?_⟩
    rw [testAlternative_one (by decide) (by decide), testAlternative_one (by decide) (by decide),
      testAlternative_one (by decide) (by decide), testAlternative_one (by decide) (by decide),
      testAlternative_one (by decide) (by decide), not_decide_neg, not_decide_le, and_decide_le]
    simp [comparatorsOf, solid, open_, holdsFor, Outcome.monad_pure]
  | true =>
    obtain ⟨next, increased⟩ := nextVersion_small small
    -- The bounds of a partial version: its first version, and the first one above it.
    let low : Version := { result.version with prerelease := [['0']] }
    let high : Version := { next with prerelease := [['0']] }
    refine ⟨decide (version.compare (some low) < 0), decide (version.compare (some high) < 0),
      [⟨.lessThan, low⟩], [⟨.greaterThanEqual, low⟩], [⟨.lessThan, high⟩], [⟨.greaterThanEqual, high⟩],
      [⟨.greaterThanEqual, low⟩, ⟨.lessThan, high⟩], ?_⟩
    rw [testAlternative_one (by decide) (by decide), testAlternative_one (by decide) (by decide),
      testAlternative_one (by decide) (by decide), testAlternative_one (by decide) (by decide),
      testAlternative_two, not_decide_neg, not_decide_neg]
    simp [comparatorsOf, solid, open_, holdsFor, increased, low, high, Outcome.monad_pure, Outcome.monad_bind]
end

/-- Below and at least, at most and above are opposites, and equal is at least and at most. -/
theorem operators_complementary {text : Text} (accepted : (parsePartial text).2 = true)
    (small : (parsePartial text).1.version.Small) (version : Version) :
    ∃ below atMost, rangeTest ('<' :: text) version = .ok (some below) ∧
      rangeTest ('>' :: '=' :: text) version = .ok (some (!below)) ∧
      rangeTest ('<' :: '=' :: text) version = .ok (some atMost) ∧
      rangeTest ('>' :: text) version = .ok (some (!atMost)) ∧
      rangeTest ('=' :: text) version = .ok (some (!below && atMost)) := by
  rw [parsePartial_ok] at accepted
  obtain ⟨result, read⟩ := Option.isSome_iff_exists.mp accepted
  rw [parsePartial_of_some read] at small
  have fits : ∃ below atMost, Complementary result version below atMost := by
    cases wild : isWildcard result.majorStr with
    | true => exact ⟨false, true, complementary_wild wild⟩
    | false => exact complementary_number wild small
  obtain ⟨below, atMost, lt, ge, le, gt, eq, expandLt, expandGe, expandLe, expandGt, expandEq, testLt, testGe, testLe,
    testGt, testEq⟩ := fits
  exact ⟨below, atMost, rangeTest_operator .lessThan read expandLt testLt,
    rangeTest_operator .greaterThanEqual read expandGe testGe, rangeTest_operator .lessThanEqual read expandLe testLe,
    rangeTest_operator .greaterThan read expandGt testGt, rangeTest_operator .equal read expandEq testEq⟩

theorem operators_complementary_wildcard : rangeTest "<1.x".toList ⟨1, 0, 0, [], []⟩ = .ok (some false) ∧
    ∃ below atMost, rangeTest "<1.x".toList ⟨1, 0, 0, [], []⟩ = .ok (some below) ∧
      rangeTest ">=1.x".toList ⟨1, 0, 0, [], []⟩ = .ok (some (!below)) ∧
      rangeTest "<=1.x".toList ⟨1, 0, 0, [], []⟩ = .ok (some atMost) ∧
      rangeTest ">1.x".toList ⟨1, 0, 0, [], []⟩ = .ok (some (!atMost)) ∧
      rangeTest "=1.x".toList ⟨1, 0, 0, [], []⟩ = .ok (some (!below && atMost)) :=
  ⟨by decide, @operators_complementary "1.x".toList (by decide) ⟨by decide, by decide, by decide⟩
    ⟨1, 0, 0, [], []⟩⟩

end TypeScriptRs.Semver
