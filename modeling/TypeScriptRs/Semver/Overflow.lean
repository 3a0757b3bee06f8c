import TypeScriptRs.Semver.RangeReading

/-! The numbers that a range increases, and when they fit. -/
namespace TypeScriptRs.Semver
open Machine Decimal

def PartialVersion.raised (result : PartialVersion) : Option Nat :=
  if isWildcard result.majorStr then none
  else if isWildcard result.minorStr then some result.version.major
  else if isWildcard result.patchStr then some result.version.minor
  else none

def ComparatorOperator.raised (operator : ComparatorOperator) (result : PartialVersion) : Option Nat :=
  match operator with
  | .lessThan | .greaterThanEqual => none
  | .lessThanEqual | .greaterThan | .equal => result.raised
  | .tilde =>
    if isWildcard result.majorStr then none
    else if isWildcard result.minorStr then some result.version.major
    else some result.version.minor
  | .caret =>
    if isWildcard result.majorStr then none
    else if result.version.major > 0 || isWildcard result.minorStr then some result.version.major
    else if result.version.minor > 0 || isWildcard result.patchStr then some result.version.minor
    else some result.version.patch

def Step.raised : Step → Option Nat
  | .hyphen left right => (readPartial left).bind fun _ => (readPartial right).bind PartialVersion.raised
  | .simple text =>
    (parseRange text).bind fun split => (readPartial split.2).bind fun result => (split.1.getD .equal).raised result

def CanRaise (n : Nat) : Prop := n + 1 < 2 ^ 32

section
variable {result : PartialVersion}

def Ends {α : Type} (outcome : Outcome α) : Prop := ∃ a, outcome = .ok a

theorem ends_pure {α : Type} (a : α) : Ends (pure a : Outcome α) := ⟨a, rfl⟩

theorem ends_bind_pure {α β : Type} {outcome : Outcome α} {f : α → β} :
    Ends (outcome >>= fun a => pure (f a)) ↔ Ends outcome := by
  constructor
  · rintro ⟨b, returned⟩
    obtain ⟨a, first, -⟩ := Outcome.bind_eq_ok returned
    exact ⟨a, first⟩
  · rintro ⟨a, rfl⟩
    exact ⟨f a, rfl⟩

theorem ends_increment {n : Nat} : Ends (increment n) ↔ CanRaise n := by
  unfold increment CanRaise
  split
  · rename_i fits
    exact iff_of_true ⟨n + 1, rfl⟩ fits
  · rename_i wide
    exact iff_of_false (by rintro ⟨_, ⟨⟩⟩) wide

theorem ends_incrementMajor (v : Version) : Ends v.incrementMajor ↔ CanRaise v.major :=
  ends_bind_pure.trans ends_increment

theorem ends_incrementMinor (v : Version) : Ends v.incrementMinor ↔ CanRaise v.minor :=
  ends_bind_pure.trans ends_increment

theorem ends_incrementPatch (v : Version) : Ends v.incrementPatch ↔ CanRaise v.patch :=
  ends_bind_pure.trans ends_increment

theorem ends_nextVersion : Ends (nextVersion result) ↔
    CanRaise (if isWildcard result.minorStr then result.version.major else result.version.minor) := by
  unfold nextVersion
  split
  · exact ends_incrementMajor _
  · exact ends_incrementMinor _

theorem ends_wildcard (solid : isWildcard result.majorStr = false)
    (open_ : (isWildcard result.minorStr || isWildcard result.patchStr) = true) :
    Ends (nextVersion result) ↔ ∀ n ∈ result.raised, CanRaise n := by
  rw [ends_nextVersion]
  unfold PartialVersion.raised
  cases minor : isWildcard result.minorStr with
  | true => simp [solid]
  | false =>
    have patch : isWildcard result.patchStr = true := by simpa [minor] using open_
    simp [solid, patch]

theorem raised_closed (closed : (isWildcard result.minorStr || isWildcard result.patchStr) = false) : result.raised = none := by
  obtain ⟨minor, patch⟩ := Bool.or_eq_false_iff.mp closed
  unfold PartialVersion.raised
  simp [minor, patch]

theorem ends_hyphenComparators (leftResult : PartialVersion) :
    Ends (hyphenComparators leftResult result) ↔ ∀ n ∈ result.raised, CanRaise n := by
  unfold hyphenComparators
  cases solid : isWildcard result.majorStr with
  | true =>
    have none : result.raised = none := by simp [PartialVersion.raised, solid]
    rw [none]
    exact iff_of_true (ends_pure _) (by rintro _ ⟨⟩)
  | false =>
    cases open_ : isWildcard result.minorStr || isWildcard result.patchStr with
    | true => exact ends_bind_pure.trans (ends_wildcard solid open_)
    | false =>
      rw [raised_closed open_]
      exact iff_of_true (ends_pure _) (by rintro _ ⟨⟩)

theorem ends_comparatorsOf (operator : ComparatorOperator) :
    Ends (comparatorsOf operator result) ↔ ∀ n ∈ operator.raised result, CanRaise n := by
  unfold comparatorsOf
  cases solid : isWildcard result.majorStr with
  | true =>
    have none : operator.raised result = none := by
      cases operator <;> simp [ComparatorOperator.raised, PartialVersion.raised, solid]
    have returns : Ends (if operator = .lessThan || operator = .greaterThan then
        (pure [⟨.lessThan, versionZero⟩] : Outcome (List VersionComparator)) else pure []) := by
      split
      · exact ends_pure _
      · exact ends_pure _
    rw [none]
    exact iff_of_true returns (by rintro _ ⟨⟩)
  | false =>
    cases operator with
    | lessThan => exact iff_of_true (ends_pure _) (by rintro _ ⟨⟩)
    | greaterThanEqual => exact iff_of_true (ends_pure _) (by rintro _ ⟨⟩)
    | tilde =>
      refine ends_bind_pure.trans (ends_nextVersion.trans ?_)
      unfold ComparatorOperator.raised
      cases minor : isWildcard result.minorStr with
      | true => simp [solid]
      | false => simp [solid]
    | caret =>
      refine ends_bind_pure.trans ?_
      unfold ComparatorOperator.raised caretVersion
      dsimp only
      rw [solid, if_neg Bool.false_ne_true]
      split
      · simpa using ends_incrementMajor result.version
      · split
        · simpa using ends_incrementMinor result.version
        · simpa using ends_incrementPatch result.version
    | _ =>
      unfold ComparatorOperator.raised
      cases open_ : isWildcard result.minorStr || isWildcard result.patchStr with
      | true => exact ends_bind_pure.trans (ends_wildcard solid open_)
      | false =>
        rw [raised_closed open_]
        exact iff_of_true (ends_pure _) (by rintro _ ⟨⟩)
end

section
theorem getUintComponent_lt {text : Text} {n : Nat} (read : getUintComponent text = some n) : n < 2 ^ 32 := by
  unfold getUintComponent at read
  extract_lets digits at read
  split at read
  · rename_i fine
    cases read
    exact fine.2.2
  · cases read

theorem coreNumbers_lt {major minor patch : Text} {numbers : Nat × Nat × Nat}
    (read : coreNumbers major minor patch = some numbers) :
    numbers.1 < 2 ^ 32 ∧ numbers.2.1 < 2 ^ 32 ∧ numbers.2.2 < 2 ^ 32 := by
  have zero : 0 < 2 ^ 32 := by decide
  unfold coreNumbers at read
  split at read
  · cases read
    exact ⟨zero, zero, zero⟩
  obtain ⟨a, first, read⟩ := Option.bind_eq_some_iff.mp read
  split at read
  · cases read
    exact ⟨getUintComponent_lt first, zero, zero⟩
  obtain ⟨b, second, read⟩ := Option.bind_eq_some_iff.mp read
  split at read
  · cases read
    exact ⟨getUintComponent_lt first, getUintComponent_lt second, zero⟩
  · obtain ⟨c, third, rfl⟩ := Option.map_eq_some_iff.mp read
    exact ⟨getUintComponent_lt first, getUintComponent_lt second, getUintComponent_lt third⟩

structure Version.InRange (v : Version) : Prop where
  major : v.major < 2 ^ 32
  minor : v.minor < 2 ^ 32
  patch : v.patch < 2 ^ 32

theorem inRange_of_readPartial {text : Text} {result : PartialVersion} (read : readPartial text = some result) :
    result.version.InRange := by
  obtain ⟨p, -, -, numbers, found, rfl⟩ := readPartial_eq_some.mp read
  obtain ⟨major, minor, patch⟩ := coreNumbers_lt found
  exact ⟨major, minor, patch⟩

variable {result : PartialVersion} {n : Nat}

theorem PartialVersion.raised_lt (fits : result.version.InRange) (raised : n ∈ result.raised) : n < 2 ^ 32 := by
  unfold PartialVersion.raised at raised
  split at raised
  · cases raised
  split at raised
  · cases raised
    exact fits.major
  · split at raised
    · cases raised
      exact fits.minor
    · cases raised

theorem ComparatorOperator.raised_lt {operator : ComparatorOperator} (fits : result.version.InRange)
    (raised : n ∈ operator.raised result) : n < 2 ^ 32 := by
  unfold ComparatorOperator.raised at raised
  cases operator with
  | lessThan => cases raised
  | greaterThanEqual => cases raised
  | tilde =>
    dsimp only at raised
    split at raised
    · cases raised
    split at raised
    · cases raised
      exact fits.major
    · cases raised
      exact fits.minor
  | caret =>
    dsimp only at raised
    split at raised
    · cases raised
    split at raised
    · cases raised
      exact fits.major
    split at raised
    · cases raised
      exact fits.minor
    · cases raised
      exact fits.patch
  | _ => exact PartialVersion.raised_lt fits raised
end

theorem canRaise_iff {raised : Option Nat} (fits : ∀ n ∈ raised, n < 2 ^ 32) :
    (∀ n ∈ raised, CanRaise n) ↔ raised ≠ some (2 ^ 32 - 1) := by
  unfold CanRaise
  cases raised with
  | none => exact iff_of_true (by rintro _ ⟨⟩) (by rintro ⟨⟩)
  | some n =>
    have inRange := fits n rfl
    constructor
    · intro can same
      have largest : n = 2 ^ 32 - 1 := Option.some.inj same
      have increased := can n rfl
      omega
    · rintro other _ ⟨⟩
      have smaller : n ≠ 2 ^ 32 - 1 := fun same => other (congrArg some same)
      omega

theorem Step.returns_iff (step : Step) : step.Returns ↔ step.raised ≠ some (2 ^ 32 - 1) := by
  have rejected : ∀ s : Step, s.expansion = none → s.Returns := fun s none => ⟨_, by rw [Step.run, none]; rfl⟩
  have returns : ∀ (s : Step) (outcome : Outcome (List VersionComparator)), s.expansion = some outcome →
      (s.Returns ↔ Ends outcome) := by
    intro s outcome found
    unfold Step.Returns Step.run
    rw [found]
    exact ends_bind_pure
  cases step with
  | hyphen left right =>
    cases read : readPartial left with
    | none => exact iff_of_true (rejected _ (by simp [Step.expansion, read])) (by simp [Step.raised, read])
    | some leftResult =>
      cases read' : readPartial right with
      | none => exact iff_of_true (rejected _ (by simp [Step.expansion, read'])) (by simp [Step.raised, read'])
      | some rightResult =>
        have raised : (Step.hyphen left right).raised = rightResult.raised := by simp [Step.raised, read, read']
        rw [returns _ (hyphenComparators leftResult rightResult) (by simp [Step.expansion, read, read']),
          ends_hyphenComparators, raised]
        exact canRaise_iff fun n => PartialVersion.raised_lt (inRange_of_readPartial read')
  | simple text =>
    cases split : parseRange text with
    | none => exact iff_of_true (rejected _ (by simp [Step.expansion, split])) (by simp [Step.raised, split])
    | some pair =>
      cases read : readPartial pair.2 with
      | none => exact iff_of_true (rejected _ (by simp [Step.expansion, split, read])) (by simp [Step.raised, split, read])
      | some result =>
        have raised : (Step.simple text).raised = (pair.1.getD .equal).raised result := by
          simp [Step.raised, split, read]
        rw [returns _ (comparatorsOf (pair.1.getD .equal) result) (by simp [Step.expansion, split, read]),
          ends_comparatorsOf, raised]
        exact canRaise_iff fun n => ComparatorOperator.raised_lt (inRange_of_readPartial read)

/-- No addition overflows exactly if every step that increases the largest number comes after
a step that is rejected. -/
theorem increments_fit (text : Text) : (∃ result, tryParseVersionRange text = .ok result) ↔
    ∀ before step after, versionSteps text = before ++ step :: after → (∀ s ∈ before, s.Accepted) →
      step.raised ≠ some (2 ^ 32 - 1) := by
  rw [tryParseVersionRange_returns]
  constructor
  · exact fun guarded before step after shape all => step.returns_iff.mp (guarded before step after shape all)
  · exact fun fits before step after shape all => step.returns_iff.mpr (fits before step after shape all)

theorem largestMajor_overflows : tryParseVersionRange "^4294967295".toList = .panic "attempt to add with overflow" := by
  decide

end TypeScriptRs.Semver
