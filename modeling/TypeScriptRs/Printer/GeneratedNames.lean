import TypeScriptRs.Printer.NameGenerator
import TypeScriptRs.Semver.Grammar

/-! When the names of a scope are distinct. -/
namespace TypeScriptRs.Printer
open Utf8 Interleaving List
open Semver (decimal numberOf_decimal isNumber_decimal isAsciiDigit)

theorem decimal_injective : Function.Injective decimal := by
  intro n n' same
  rw [← numberOf_decimal n, same, numberOf_decimal]

theorem isAsciiDigit_of_mem_decimal {n : Nat} {c : Char} (listed : c ∈ decimal n) : isAsciiDigit c = true :=
  (isNumber_decimal n).2.1 c listed

theorem decimal_ne_letter {n count : Nat} (small : count < 26) : decimal n ≠ [Char.ofNat (97 + count)] := by
  intro same
  have digit : isAsciiDigit (Char.ofNat (97 + count)) = true := isAsciiDigit_of_mem_decimal (n := n) (by simp [same])
  interval_cases count <;> exact absurd digit (by decide)

theorem letter_injective {count count' : Nat} (small : count < 26) (small' : count' < 26)
    (same : Char.ofNat (97 + count) = Char.ofNat (97 + count')) : count = count' := by
  have value (k : Nat) (below : k < 26) : (Char.ofNat (97 + k)).toNat = 97 + k := by
    interval_cases k <;> rfl
  have equal := value count small
  rw [same, value count' small'] at equal
  omega

def tempLabel (count : Nat) : Text := if count < 26 then [Char.ofNat (97 + count)] else decimal (count - 26)

theorem tempName_eq (count : Nat) : tempName count = '_' :: tempLabel count := by
  unfold tempName tempLabel
  split <;> rfl

theorem tempLabel_injective : Function.Injective tempLabel := by
  intro n n' same
  unfold tempLabel at same
  split at same <;> split at same
  · rename_i small small'
    exact letter_injective small small' (List.cons.inj same).1
  · rename_i small _
    exact absurd same.symm (decimal_ne_letter small)
  · rename_i _ small
    exact absurd same (decimal_ne_letter small)
  · have equal := decimal_injective same
    omega

theorem underscore_not_mem_tempLabel (count : Nat) : '_' ∉ tempLabel count := by
  unfold tempLabel
  split
  · interval_cases count <;> decide
  · exact fun listed => absurd (isAsciiDigit_of_mem_decimal listed) (by decide)

theorem formatGeneratedName_tempName (pre suf : Text) (count : Nat) : formatGeneratedName false pre (tempName count) suf =
      removeLeadingHash pre ++ '_' :: tempLabel count ++ removeLeadingHash suf := by
  rw [tempName_eq]
  rfl

theorem counterOf_false (pre suf : Text) : counterOf false pre suf =
    if pre = [] ∧ suf = [] then .simple else .formatted (removeLeadingHash pre ++ removeLeadingHash suf) := by
  simp [counterOf, formatGeneratedName, removeLeadingHash]

theorem number_eq_of_formatted {pre suf pre' suf' : Text} {n n' : Nat}
    (same : counterOf false pre suf = counterOf false pre' suf')
    (equal : formatGeneratedName false pre (tempName n) suf = formatGeneratedName false pre' (tempName n') suf') :
    n = n' := by
  have around : removeLeadingHash pre ++ removeLeadingHash suf = removeLeadingHash pre' ++ removeLeadingHash suf' := by
    rw [counterOf_false, counterOf_false] at same
    split at same <;> split at same
    · rename_i bare bare'
      rw [bare.1, bare.2, bare'.1, bare'.2]
    · cases same
    · cases same
    · exact Counter.formatted.inj same
  rw [formatGeneratedName_tempName, formatGeneratedName_tempName] at equal
  exact tempLabel_injective (Split.eq_of_inserted (underscore_not_mem_tempLabel n) (underscore_not_mem_tempLabel n')
    around equal)

theorem and_countMask (flags : TempFlags) : flags &&& tempFlagsCountMask = flags % 2 ^ 28 :=
  Nat.and_two_pow_sub_one_eq_mod flags 28

theorem and_tempFlagsI_eq_zero {flags : Nat} (narrow : flags < 2 ^ 29) : flags &&& tempFlagsI = 0 ↔ flags < 2 ^ 28 := by
  have bit (i : Nat) : (flags &&& tempFlagsI).testBit i = (flags.testBit i && decide (28 = i)) := by
    rw [Nat.testBit_and, show tempFlagsI = 2 ^ 28 from rfl, Nat.testBit_two_pow]
  constructor
  · intro unset
    have clear : flags.testBit 28 = false := by simpa [unset] using (bit 28).symm
    rw [Nat.testBit_eq_decide_div_mod_eq, decide_eq_false_iff_not] at clear
    omega
  intro low
  refine Nat.eq_of_testBit_eq fun i => ?_
  rw [bit, Nat.zero_testBit, Bool.and_eq_false_iff]
  by_cases here : 28 = i
  · exact .inl (here ▸ Nat.testBit_lt_two_pow low)
  · exact .inr (decide_eq_false here)

theorem or_tempFlagsI {flags : TempFlags} (unset : flags < 2 ^ 28) : flags ||| tempFlagsI = flags + 2 ^ 28 := by
  have sum := Nat.two_pow_add_eq_or_of_lt unset 1
  rw [Nat.mul_one, Nat.or_comm, Nat.add_comm] at sum
  exact sum.symm

section
variable {accept : Text → Bool} {format : Text → Text} {fuel flags : Nat} {found : Text × TempFlags}

theorem nextTemp_spec (ended : nextTemp accept format fuel flags = some found) :
    ∃ k, found = (format (tempName ((flags + k) % 2 ^ 28)), flags + k + 1) ∧
      (flags + k) % 2 ^ 28 ≠ 8 ∧ (flags + k) % 2 ^ 28 ≠ 13 ∧ accept found.1 = true ∧
      ∀ j < k, (flags + j) % 2 ^ 28 ≠ 8 → (flags + j) % 2 ^ 28 ≠ 13 →
        accept (format (tempName ((flags + j) % 2 ^ 28))) = false := by
  induction fuel generalizing flags with
  | zero => cases ended
  | succ fuel ih =>
    rw [nextTemp] at ended
    simp only [and_countMask] at ended
    split at ended
    · rename_i taken
      cases ended
      exact ⟨0, rfl, taken.1, taken.2.1, taken.2.2, fun j before => absurd before (Nat.not_lt_zero j)⟩
    rename_i refused
    obtain ⟨k, named, eight, thirteen, accepted, before⟩ := ih ended
    rw [Nat.add_right_comm, Nat.add_assoc] at named eight thirteen
    refine ⟨k + 1, ?_, eight, thirteen, accepted, ?_⟩
    · rw [named, Nat.add_assoc flags (k + 1) 1]
    intro j below not_eight not_thirteen
    cases j with
    | zero => exact Bool.eq_false_iff.mpr fun fits => refused ⟨not_eight, not_thirteen, fits⟩
    | succ j =>
      have earlier := before j (Nat.lt_of_succ_lt_succ below)
      rw [Nat.add_right_comm, Nat.add_assoc] at earlier
      exact earlier not_eight not_thirteen

theorem nextTemp_free {n : Nat}
    (ended : nextTemp accept format fuel flags = some found) (least : flags % 2 ^ 28 ≤ n) (below : n + 1 < 2 ^ 28)
    (plain : n ≠ 8 ∧ n ≠ 13) (fits : accept (format (tempName n)) = true) :
    ∃ k, found = (format (tempName (flags % 2 ^ 28 + k)), flags + k + 1) ∧ flags % 2 ^ 28 + k ≤ n ∧
      flags % 2 ^ 28 + k ≠ 8 ∧ flags % 2 ^ 28 + k ≠ 13 ∧
      ∀ m, flags % 2 ^ 28 ≤ m → m < flags % 2 ^ 28 + k → m ≠ 8 → m ≠ 13 → accept (format (tempName m)) = false := by
  obtain ⟨k, named, eight, thirteen, -, before⟩ := nextTemp_spec ended
  have place (j : Nat) (room : flags % 2 ^ 28 + j < 2 ^ 28) : (flags + j) % 2 ^ 28 = flags % 2 ^ 28 + j := by omega
  have early : flags % 2 ^ 28 + k ≤ n := by
    by_contra late
    have earlier := before (n - flags % 2 ^ 28) (by omega)
    rw [place _ (by omega), Nat.add_sub_cancel' least] at earlier
    exact absurd fits (Bool.eq_false_iff.mp (earlier plain.1 plain.2))
  rw [place k (by omega)] at named eight thirteen
  refine ⟨k, named, early, eight, thirteen, fun m low high not_eight not_thirteen => ?_⟩
  have earlier := before (m - flags % 2 ^ 28) (by omega)
  rw [place _ (by omega), Nat.add_sub_cancel' low] at earlier
  exact earlier not_eight not_thirteen

theorem nextUnique_spec {base : Text} {i : Nat} {name : Text} (ended : nextUnique accept format base fuel i = some name) :
    ∃ k ≥ i, name = format (base ++ decimal k) ∧ accept name = true ∧
      ∀ j, i ≤ j → j < k → accept (format (base ++ decimal j)) = false := by
  induction fuel generalizing i with
  | zero => cases ended
  | succ fuel ih =>
    rw [nextUnique] at ended
    split at ended
    · rename_i accepted
      cases ended
      exact ⟨i, Nat.le_refl i, rfl, accepted, fun j least below => absurd below (Nat.not_lt_of_le least)⟩
    rename_i refused
    obtain ⟨k, later, named, accepted, before⟩ := ih ended
    refine ⟨k, Nat.le_of_succ_le later, named, accepted, fun j least below => ?_⟩
    rcases Nat.eq_or_lt_of_le least with rfl | next
    · exact Bool.eq_false_iff.mpr refused
    · exact before j next below
end

/-- A temporary that neither its scope nor the file remembers. -/
def Generated.Unrecorded (x : Generated) (privateName : Bool) : Prop :=
  privateName = false ∧ x.reservedInNestedScopes = false ∧ x.counter ≠ none

/-- The number of a temporary has been given out. The number of `_i` is 8. -/
def Passed (flags n : Nat) : Prop := if n = 8 then 2 ^ 28 ≤ flags else n < flags % 2 ^ 28

namespace NameGenerator

variable {g g' : NameGenerator} {privateName : Bool}

def innermost (g : NameGenerator) (privateName : Bool) : NameGenerationScope := (g.scopes privateName).headD {}

/-- The names that a call for a temporary comes to: all before it are refused. -/
def TriesTemp (g : NameGenerator) (flags : TempFlags) (privateName : Bool) (pre suf name : Text) : Prop :=
  let formatted base := formatGeneratedName privateName pre base suf
  let refused base := g.isUniqueName (formatted base) privateName = false
  let tempFlags := g.getTempFlags privateName (counterOf privateName pre suf)
  let prefersI := flags ≠ 0 ∧ tempFlags &&& flags = 0
  (prefersI ∧ name = formatted ['_', 'i']) ∨
    ((prefersI → refused ['_', 'i']) ∧ ∃ n ≥ tempFlags &&& tempFlagsCountMask, n ≠ 8 ∧ n ≠ 13 ∧ name = formatted (tempName n) ∧
      ∀ m, tempFlags &&& tempFlagsCountMask ≤ m → m < n → m ≠ 8 → m ≠ 13 → refused (tempName m))

def TriesUnique (g : NameGenerator) (baseName : Text) (optimistic privateName : Bool) (pre suf name : Text) : Prop :=
  let base := removeLeadingHash baseName
  let formatted base := formatGeneratedName privateName pre base suf
  let refused base := g.isUniqueName (formatted base) privateName = false
  (optimistic = true ∧ name = formatted base) ∨
    ((optimistic = true → refused base) ∧ ∃ i > 0, name = formatted (numberedBase base ++ decimal i) ∧
      ∀ j > 0, j < i → refused (numberedBase base ++ decimal j))

/-- A temporary has a number left below the limit of its counter, and no call comes to a temporary of the innermost
scope that is remembered nowhere, other than one of its own counter. -/
def Permitted (g : NameGenerator) : Action → Prop
  | .pushScope _ | .popScope _ => True
  | .makeTempVariableName flags _ privateName pre suf => privateName = false →
    let counter := counterOf false pre suf
    (flags = tempFlagsAuto ∨ flags = tempFlagsI) ∧
    (∃ n ≥ g.getTempFlags false counter &&& tempFlagsCountMask, n < tempFlagsCountMask ∧ n ≠ 8 ∧ n ≠ 13 ∧
      g.isUniqueName (formatGeneratedName false pre (tempName n) suf) false = true) ∧
    ∀ y ∈ (g.innermost false).names, y.Unrecorded false → y.counter ≠ some counter →
      ¬g.TriesTemp flags false pre suf y.name
  | .makeUniqueName baseName optimistic _ privateName pre suf =>
    ∀ y ∈ (g.innermost privateName).names, y.Unrecorded privateName →
      ¬g.TriesUnique baseName optimistic privateName pre suf y.name

/-- The names of every scope are distinct, and differ from those of the file and the global ones. A reserved name is
not a name of a scope inside of its own. -/
structure NeverConflict (g : NameGenerator) : Prop where
  distinct : ∀ privateName, ∀ scope ∈ g.scopes privateName, (scope.names.map (·.name)).Nodup
  unused : ∀ privateName, ∀ scope ∈ g.scopes privateName, ∀ x ∈ scope.names,
    g.isFileLevelUniqueNameInCurrentFile x.name = true
  nested : ∀ privateName, (g.scopes privateName).Pairwise fun inner outer =>
    ∀ x ∈ outer.names, x.reservedInNestedScopes = true → ∀ y ∈ inner.names, y.name ≠ x.name

def Counted (scope : NameGenerationScope) (x : Generated) : Prop :=
  ∀ c, x.counter = some c → ∃ pre suf n, counterOf false pre suf = c ∧
    x.name = formatGeneratedName false pre (tempName n) suf ∧ Passed (scope.flagsOf c) n

structure ScopeConsistent (g : NameGenerator) (privateName : Bool) (scope : NameGenerationScope) : Prop where
  distinct : (scope.names.map (·.name)).Nodup
  unused : ∀ x ∈ scope.names, g.isFileLevelUniqueNameInCurrentFile x.name = true
  reserved : ∀ x ∈ scope.names, (privateName || x.reservedInNestedScopes) = true → x.name ∈ scope.reservedNames
  generated : ∀ x ∈ scope.names, (privateName || x.reservedInNestedScopes) = false → x.counter = none →
    x.name ∈ g.generatedNames
  counted : privateName = false → ∀ x ∈ scope.names, x.reservedInNestedScopes = false → Counted scope x
  narrow : privateName = false → ∀ c, scope.flagsOf c < 2 ^ 29

structure Consistent (g : NameGenerator) : Prop where
  each : ∀ privateName, ∀ scope ∈ g.scopes privateName, ScopeConsistent g privateName scope
  nested : ∀ privateName, (g.scopes privateName).Pairwise fun inner outer =>
    ∀ x ∈ outer.names, x.reservedInNestedScopes = true → ∀ y ∈ inner.names, y.name ≠ x.name

theorem Consistent.neverConflict (known : g.Consistent) : g.NeverConflict where
  distinct p scope listed := (known.each p scope listed).distinct
  unused p scope listed := (known.each p scope listed).unused
  nested := known.nested

theorem changeInnermost_eq (f : NameGenerationScope → NameGenerationScope) (stack : List NameGenerationScope) :
    changeInnermost f stack = f (stack.headD {}) :: stack.tail := by cases stack <;> rfl

theorem scopes_modifyScope (g : NameGenerator) (p q : Bool) (f : NameGenerationScope → NameGenerationScope) :
    (g.modifyScope p f).scopes q = if q = p then f (g.innermost p) :: (g.scopes p).tail else g.scopes q := by
  cases p <;> cases q <;> simp [modifyScope, scopes, innermost, changeInnermost_eq]

theorem modifyScope_modifyScope (g : NameGenerator) (p : Bool) (f h : NameGenerationScope → NameGenerationScope) :
    (g.modifyScope p f).modifyScope p h = g.modifyScope p (h ∘ f) := by
  cases p <;> simp [modifyScope, changeInnermost_eq]

theorem getTempFlags_eq (g : NameGenerator) (p : Bool) (c : Counter) : g.getTempFlags p c = (g.innermost p).flagsOf c := by
  unfold getTempFlags innermost
  split
  · rename_i none_
    rw [none_]
    cases c <;> rfl
  · rename_i some_
    rw [some_]
    rfl

theorem scopeConsistent_default (g : NameGenerator) (p : Bool) : ScopeConsistent g p {} where
  distinct := nodup_nil
  unused _ listed := by cases listed
  reserved _ listed := by cases listed
  generated _ listed := by cases listed
  counted _ _ listed := by cases listed
  narrow _ c := by
    have empty : NameGenerationScope.flagsOf {} c = 0 := by cases c <;> rfl
    rw [empty]
    decide

theorem Consistent.innermost (known : g.Consistent) (p : Bool) : ScopeConsistent g p (g.innermost p) := by
  unfold NameGenerator.innermost
  cases stack : g.scopes p with
  | nil => exact scopeConsistent_default g p
  | cons scope next => exact known.each p scope (by simp [stack])

section
variable {scope scope' : NameGenerationScope} {x : Generated}

/-- Hand out a name: what the scope and the file remember of it, and how the counters change. -/
def give (g : NameGenerator) (p : Bool) (x : Generated) (change : NameGenerationScope → NameGenerationScope) :
    NameGenerator :=
  let inFile := !(p || x.reservedInNestedScopes) && x.counter.isNone
  { g with generatedNames := if inFile then insert x.name g.generatedNames else g.generatedNames }.modifyScope p
    fun scope => (change (if p || x.reservedInNestedScopes then scope.reserve x.name else scope)).note x

theorem reserveName_temp (g : NameGenerator) (name : Text) (p isScoped : Bool) : g.reserveName name p isScoped true =
      g.modifyScope p fun scope => if p || isScoped then scope.reserve name else scope := by
  cases p <;> cases isScoped <;> simp [reserveName, modifyScope, changeInnermost_eq]

theorem give_temp (g : NameGenerator) (p reserved : Bool) (name : Text) (c : Counter) (flags : TempFlags) :
    ((g.reserveName name p reserved true).setTempFlags p c flags).modifyScope p (·.note ⟨name, reserved, some c⟩) =
      g.give p ⟨name, reserved, some c⟩ (·.setFlagsOf flags c) := by
  rw [reserveName_temp, setTempFlags, modifyScope_modifyScope, modifyScope_modifyScope]
  simp only [give, Option.isNone_some, Bool.and_false, Bool.false_eq_true, if_false]
  rfl

theorem give_unique (g : NameGenerator) (p isScoped : Bool) (name : Text) :
    (g.reserveName name p isScoped false).modifyScope p (·.note ⟨name, isScoped, none⟩) =
      g.give p ⟨name, isScoped, none⟩ id := by
  cases p <;> cases isScoped <;> simp [reserveName, give, modifyScope, changeInnermost_eq]

theorem scopes_give (g : NameGenerator) (p q : Bool) (x : Generated) (change : NameGenerationScope → NameGenerationScope) :
    (g.give p x change).scopes q = if q = p then
      (change (if p || x.reservedInNestedScopes then (g.innermost p).reserve x.name else g.innermost p)).note x ::
        (g.scopes p).tail
    else g.scopes q := by
  unfold give
  rw [scopes_modifyScope]
  rfl

theorem generatedNames_give (g : NameGenerator) (p : Bool) (x : Generated)
    (change : NameGenerationScope → NameGenerationScope) : (g.give p x change).generatedNames =
      if !(p || x.reservedInNestedScopes) && x.counter.isNone then insert x.name g.generatedNames else g.generatedNames := by
  cases p <;> rfl

theorem isFileLevelUniqueNameInCurrentFile_give (g : NameGenerator) (p : Bool) (x : Generated)
    (change : NameGenerationScope → NameGenerationScope) (name : Text) :
    (g.give p x change).isFileLevelUniqueNameInCurrentFile name = g.isFileLevelUniqueNameInCurrentFile name := by
  cases p <;> rfl

theorem subset_generatedNames_give (g : NameGenerator) (p : Bool) (x : Generated)
    (change : NameGenerationScope → NameGenerationScope) : g.generatedNames ⊆ (g.give p x change).generatedNames := by
  rw [generatedNames_give]
  split
  · exact Finset.subset_insert _ _
  · exact Finset.Subset.refl _

theorem isUniqueName_eq_true {name : Text} (unique : g.isUniqueName name privateName = true) :
    g.isFileLevelUniqueNameInCurrentFile name = true ∧ name ∉ g.generatedNames ∧
      ∀ scope ∈ g.scopes privateName, name ∉ scope.reservedNames := by
  simpa [isUniqueName, isReservedName, not_or] using unique

/-- The counters of a scope after a temporary has been handed out. -/
structure Advances (scope scope' : NameGenerationScope) : Prop where
  kept : ∀ c n, Passed (scope.flagsOf c) n → Passed (scope'.flagsOf c) n
  narrow : ∀ c, scope'.flagsOf c < 2 ^ 29

theorem Counted.advances (counted : Counted scope x) (further : Advances scope scope') : Counted scope' x := by
  intro c named
  obtain ⟨pre, suf, n, same, shape, passed⟩ := counted c named
  exact ⟨pre, suf, n, same, shape, further.kept c n passed⟩

section
variable (known : ScopeConsistent g privateName scope)
include known

theorem ScopeConsistent.mono (file : ∀ name, g'.isFileLevelUniqueNameInCurrentFile name = g.isFileLevelUniqueNameInCurrentFile name)
    (grown : g.generatedNames ⊆ g'.generatedNames) : ScopeConsistent g' privateName scope where
  distinct := known.distinct
  unused x listed := (file x.name).trans (known.unused x listed)
  reserved := known.reserved
  generated x listed plain unique := grown (known.generated x listed plain unique)
  counted := known.counted
  narrow := known.narrow

theorem ScopeConsistent.unrecorded_of_unique {y : Generated} (listed : y ∈ scope.names) (unreserved : y.name ∉ scope.reservedNames)
    (ungenerated : y.name ∉ g.generatedNames) : y.Unrecorded privateName := by
  cases plain : privateName || y.reservedInNestedScopes with
  | true => exact absurd (known.reserved y listed plain) unreserved
  | false =>
    obtain ⟨open_, unreserved_⟩ := Bool.or_eq_false_iff.mp plain
    exact ⟨open_, unreserved_, fun unique => ungenerated (known.generated y listed plain unique)⟩

theorem ScopeConsistent.note (unused : g.isFileLevelUniqueNameInCurrentFile x.name = true)
    (new : ∀ y ∈ scope.names, y.name ≠ x.name) (names : scope'.names = scope.names)
    (kept : scope.reservedNames ⊆ scope'.reservedNames)
    (reserved : (privateName || x.reservedInNestedScopes) = true → x.name ∈ scope'.reservedNames)
    (generated : (privateName || x.reservedInNestedScopes) = false → x.counter = none → x.name ∈ g.generatedNames)
    (counters : privateName = false → Advances scope scope' ∧ (x.reservedInNestedScopes = false → Counted scope' x)) :
    ScopeConsistent g privateName (scope'.note x) where
  distinct := by
    simp only [NameGenerationScope.note, names, map_cons, nodup_cons, mem_map, not_exists, not_and]
    exact ⟨new, known.distinct⟩
  unused := by
    simp only [NameGenerationScope.note, names, forall_mem_cons]
    exact ⟨unused, known.unused⟩
  reserved := by
    simp only [NameGenerationScope.note, names, forall_mem_cons]
    exact ⟨reserved, fun y listed marked => kept (known.reserved y listed marked)⟩
  generated := by
    simp only [NameGenerationScope.note, names, forall_mem_cons]
    exact ⟨generated, known.generated⟩
  counted plain := by
    obtain ⟨further, counted⟩ := counters plain
    intro y listed open_
    rw [NameGenerationScope.note, names] at listed
    rcases mem_cons.mp listed with rfl | earlier
    · simpa only [Counted, NameGenerationScope.flagsOf_note] using counted open_
    · exact (known.counted plain y earlier open_).advances
        ⟨by simpa only [NameGenerationScope.flagsOf_note] using further.kept, by
          simpa only [NameGenerationScope.flagsOf_note] using further.narrow⟩
  narrow plain := by simpa only [NameGenerationScope.flagsOf_note] using (counters plain).1.narrow
end

theorem Consistent.give (known : g.Consistent) {p : Bool}
    {change : NameGenerationScope → NameGenerationScope} (unique : g.isUniqueName x.name p = true)
    (apart : ∀ y ∈ (g.innermost p).names, y.Unrecorded p → y.name ≠ x.name)
    (names : ∀ scope, (change scope).names = scope.names ∧ (change scope).reservedNames = scope.reservedNames)
    (counters : p = false → ∀ scope, scope.flagsOf = (g.innermost p).flagsOf → Advances scope (change scope) ∧
      (x.reservedInNestedScopes = false → Counted (change scope) x)) : (g.give p x change).Consistent := by
  obtain ⟨unused, ungenerated, unreserved⟩ := isUniqueName_eq_true unique
  have here := known.innermost p
  have free : x.name ∉ (g.innermost p).reservedNames := by
    unfold NameGenerator.innermost
    cases stack : g.scopes p with
    | nil => exact Finset.notMem_empty _
    | cons scope next => exact unreserved scope (by simp [stack])
  have new : ∀ y ∈ (g.innermost p).names, y.name ≠ x.name := by
    intro y listed same
    refine apart y listed ?_ same
    exact here.unrecorded_of_unique listed (same ▸ free) (same ▸ ungenerated)
  have file := isFileLevelUniqueNameInCurrentFile_give g p x change
  have grown := subset_generatedNames_give g p x change
  have below : ∀ scope ∈ (g.scopes p).tail, scope ∈ g.scopes p := fun scope listed => mem_of_mem_tail listed
  let base := if p || x.reservedInNestedScopes then (g.innermost p).reserve x.name else g.innermost p
  have base_names : base.names = (g.innermost p).names := by
    simp only [base]
    split <;> rfl
  have base_flags : base.flagsOf = (g.innermost p).flagsOf := by
    simp only [base]
    split
    · exact NameGenerationScope.flagsOf_reserve _ _
    · rfl
  have first : ScopeConsistent (g.give p x change) p ((change base).note x) := by
    refine (here.mono file grown).note ((file x.name).trans unused) new ((names base).1.trans base_names) ?_ ?_ ?_ ?_
    · rw [(names base).2]
      simp only [base]
      split
      · exact Finset.subset_insert _ _
      · exact Finset.Subset.refl _
    · intro marked
      rw [(names base).2]
      simp only [base, if_pos marked]
      exact Finset.mem_insert_self _ _
    · intro plain unnumbered
      rw [generatedNames_give, plain, unnumbered]
      exact Finset.mem_insert_self _ _
    · intro plain
      obtain ⟨further, counted⟩ := counters plain base base_flags
      exact ⟨⟨fun c n passed => further.kept c n (base_flags ▸ passed), further.narrow⟩, counted⟩
  constructor
  · intro q scope listed
    rw [scopes_give] at listed
    split at listed
    · rename_i same
      subst same
      rcases mem_cons.mp listed with rfl | later
      · exact first
      · exact (known.each q scope (below scope later)).mono file grown
    · exact (known.each q scope listed).mono file grown
  intro q
  rw [scopes_give]
  split
  · rename_i same
    subst same
    refine pairwise_cons.mpr ⟨?_, (known.nested q).sublist (tail_sublist _)⟩
    intro outer listed z member marked y inside
    have outside := (known.each q outer (below outer listed)).reserved z member (by rw [marked, Bool.or_true])
    rw [NameGenerationScope.note, (names base).1, base_names, mem_cons] at inside
    rcases inside with rfl | earlier
    · exact fun same => unreserved outer (below outer listed) (same ▸ outside)
    cases stack : g.scopes q with
    | nil =>
      rw [stack] at listed
      cases listed
    | cons scope next =>
      have nested := known.nested q
      rw [stack, pairwise_cons] at nested
      rw [stack] at listed
      rw [NameGenerator.innermost, stack] at earlier
      exact nested.1 outer listed z member marked y earlier
  · exact known.nested q
end

structure GivesOut (before after n : Nat) : Prop where
  fresh : ¬Passed before n
  passed : Passed after n
  kept : ∀ m, Passed before m → Passed after m
  narrow : after < 2 ^ 29

theorem givesOut_i {flags : Nat} (unset : flags < 2 ^ 28) : GivesOut flags (flags + 2 ^ 28) 8 where
  fresh passed := absurd unset (Nat.not_lt_of_le passed)
  passed := Nat.le_add_left _ _
  kept m passed := by
    unfold Passed at *
    split at passed
    · omega
    · rwa [if_neg ‹_›, Nat.add_mod_right]
  narrow := by omega

theorem givesOut_next {flags k : Nat} (narrow : flags < 2 ^ 29) (room : flags % 2 ^ 28 + k + 1 < 2 ^ 28)
    (plain : flags % 2 ^ 28 + k ≠ 8) : GivesOut flags (flags + k + 1) (flags % 2 ^ 28 + k) where
  fresh passed := by
    rw [Passed, if_neg plain] at passed
    omega
  passed := by
    rw [Passed, if_neg plain]
    omega
  kept m passed := by
    unfold Passed at *
    split at passed
    · rw [if_pos ‹_›]
      omega
    · rw [if_neg ‹_›]
      omega
  narrow := by omega

theorem makeTempVariableName_spec {flags : TempFlags} {reserved : Bool} {pre suf : Text} {found : Text × NameGenerator}
    (made : g.makeTempVariableName flags reserved privateName pre suf = some found) :
    ∃ after, found.2 = (g.reserveName found.1 privateName reserved true).setTempFlags privateName
        (counterOf privateName pre suf) after ∧ g.isUniqueName found.1 privateName = true ∧
      (g.getTempFlags privateName (counterOf privateName pre suf) < 2 ^ 29 → flags = tempFlagsAuto ∨ flags = tempFlagsI →
        (∃ n ≥ g.getTempFlags privateName (counterOf privateName pre suf) &&& tempFlagsCountMask, n < tempFlagsCountMask ∧
          n ≠ 8 ∧ n ≠ 13 ∧ g.isUniqueName (formatGeneratedName privateName pre (tempName n) suf) privateName = true) →
        g.TriesTemp flags privateName pre suf found.1 ∧
        ∃ n, found.1 = formatGeneratedName privateName pre (tempName n) suf ∧
          GivesOut (g.getTempFlags privateName (counterOf privateName pre suf)) after n) := by
  simp only [makeTempVariableName] at made
  split at made
  · rename_i preferred
    cases made
    refine ⟨_, rfl, preferred.2.2, fun narrow value _ => ⟨.inl ⟨⟨preferred.1, preferred.2.1⟩, rfl⟩, 8, rfl, ?_⟩⟩
    obtain rfl : flags = tempFlagsI := value.resolve_left preferred.1
    have unset := (and_tempFlagsI_eq_zero narrow).mp preferred.2.1
    rw [or_tempFlagsI unset]
    exact givesOut_i unset
  rename_i refused
  obtain ⟨next, ended, rfl⟩ := Option.map_eq_some_iff.mp made
  obtain ⟨_, -, -, -, accepted, -⟩ := nextTemp_spec ended
  refine ⟨next.2, rfl, accepted, fun narrow value free => ?_⟩
  obtain ⟨n, least, below, not_eight, not_thirteen, fits⟩ := free
  rw [and_countMask] at least
  obtain ⟨k, rfl, early, eight, thirteen, before⟩ :=
    nextTemp_free ended least (Nat.succ_lt_succ below) ⟨not_eight, not_thirteen⟩ fits
  refine ⟨.inr ⟨?_, _, ?_, eight, thirteen, rfl, ?_⟩, _, rfl, ?_⟩
  · exact fun prefers => Bool.eq_false_iff.mpr fun free => refused ⟨prefers.1, prefers.2, free⟩
  · rw [and_countMask]
    exact Nat.le_add_right _ k
  · rw [and_countMask]
    exact before
  · exact givesOut_next narrow (Nat.lt_of_le_of_lt (Nat.succ_le_succ early) (Nat.succ_lt_succ below)) eight

section
variable {baseName pre suf : Text} {optimistic isScoped p : Bool}

theorem makeUniqueName_spec {found : Text × NameGenerator}
    (made : g.makeUniqueName baseName false optimistic isScoped privateName pre suf = some found) :
    found.2 = g.reserveName found.1 privateName isScoped false ∧ g.isUniqueName found.1 privateName = true ∧
      g.TriesUnique baseName optimistic privateName pre suf found.1 := by
  simp only [makeUniqueName, checkUniqueName, Bool.false_eq_true, if_false, Bool.and_eq_true] at made
  split at made
  · rename_i verbatim
    cases made
    exact ⟨rfl, verbatim.2, .inl ⟨verbatim.1, rfl⟩⟩
  rename_i refused
  obtain ⟨name, ended, rfl⟩ := Option.map_eq_some_iff.mp made
  obtain ⟨k, positive, named, accepted, before⟩ := nextUnique_spec ended
  refine ⟨rfl, accepted, .inr ⟨fun first => Bool.eq_false_iff.mpr fun free => refused ⟨first, free⟩, k, positive, named, ?_⟩⟩
  exact before

variable (known : g.Consistent)
include known

theorem Consistent.pushScope (reuse : Bool) : (g.pushScope reuse).Consistent := by
  have pushed (p : Bool) : (g.pushScope reuse).scopes p = {} :: g.scopes p ∨ (g.pushScope reuse).scopes p = g.scopes p := by
    cases p <;> cases reuse <;> simp [NameGenerator.pushScope, scopes]
  constructor
  · intro p scope listed
    refine ScopeConsistent.mono (g := g) ?_ (fun _ => rfl) (Finset.Subset.refl _)
    rcases pushed p with new | same
    · rw [new] at listed
      rcases mem_cons.mp listed with rfl | later
      · exact scopeConsistent_default g p
      · exact known.each p scope later
    · exact known.each p scope (same ▸ listed)
  · intro p
    rcases pushed p with new | same
    · rw [new]
      exact pairwise_cons.mpr ⟨fun _ _ _ _ _ _ inside => (not_mem_nil inside).elim, known.nested p⟩
    · rw [same]
      exact known.nested p

theorem Consistent.popScope (reuse : Bool) : (g.popScope reuse).Consistent := by
  have popped (p : Bool) : ((g.popScope reuse).scopes p).Sublist (g.scopes p) := by
    cases p <;> cases reuse <;> simp [NameGenerator.popScope, scopes, tail_sublist]
  constructor
  · intro p scope listed
    exact (known.each p scope ((popped p).subset listed)).mono (fun _ => rfl) (Finset.Subset.refl _)
  · exact fun p => (known.nested p).sublist (popped p)

theorem Consistent.makeTempVariableName {flags : TempFlags} {reserved : Bool}
    (allowed : g.Permitted (.makeTempVariableName flags reserved p pre suf))
    (taken : step g (.makeTempVariableName flags reserved p pre suf) = some g') : g'.Consistent := by
  obtain ⟨found, made, rfl⟩ := Option.map_eq_some_iff.mp taken
  obtain ⟨after, kept, unique, plain⟩ := makeTempVariableName_spec made
  rw [kept, give_temp]
  cases p with
  | true =>
    exact known.give unique (fun y _ open_ => absurd open_.1 (by decide)) (fun scope => by simp) (fun open_ => by cases open_)
  | false =>
    obtain ⟨value, room, apart⟩ := allowed rfl
    have narrow := (known.innermost false).narrow rfl (counterOf false pre suf)
    rw [← getTempFlags_eq] at narrow
    obtain ⟨tried, n, named, gives⟩ := plain narrow value room
    rw [getTempFlags_eq] at gives
    refine known.give unique ?_ (fun scope => by simp) ?_
    · intro y listed open_ same
      by_cases own : y.counter = some (counterOf false pre suf)
      · obtain ⟨pre', suf', n', counter, named', passed⟩ := (known.innermost false).counted rfl y listed open_.2.1 _ own
        have number := number_eq_of_formatted counter.symm (named.symm.trans (same.symm.trans named'))
        exact gives.fresh (number ▸ passed)
      · exact apart y listed open_ own (same ▸ tried)
    intro _ scope flags
    refine ⟨⟨fun c m passed => ?_, fun c => ?_⟩, fun _ c own => ?_⟩
    · rw [NameGenerationScope.flagsOf_setFlagsOf]
      split
      · rename_i here
        rw [here, flags] at passed
        exact gives.kept m passed
      · exact passed
    · rw [NameGenerationScope.flagsOf_setFlagsOf]
      split
      · exact gives.narrow
      · rw [flags]
        exact (known.innermost false).narrow rfl c
    · cases own
      refine ⟨pre, suf, n, rfl, named, ?_⟩
      rw [NameGenerationScope.flagsOf_setFlagsOf, if_pos rfl]
      exact gives.passed

theorem Consistent.makeUniqueName (allowed : g.Permitted (.makeUniqueName baseName optimistic isScoped p pre suf))
    (taken : step g (.makeUniqueName baseName optimistic isScoped p pre suf) = some g') : g'.Consistent := by
  obtain ⟨found, made, rfl⟩ := Option.map_eq_some_iff.mp taken
  obtain ⟨kept, unique, tried⟩ := makeUniqueName_spec made
  rw [kept, give_unique]
  refine known.give unique ?_ (fun scope => ⟨rfl, rfl⟩) ?_
  · exact fun y listed open_ same => allowed y listed open_ (same ▸ tried)
  intro plain scope flags
  subst plain
  refine ⟨⟨fun c n passed => passed, fun c => ?_⟩, fun _ c own => ?_⟩
  · rw [id_eq, flags]
    exact (known.innermost false).narrow rfl c
  · cases own

theorem Consistent.step {a : Action} (allowed : g.Permitted a) (taken : step g a = some g') : g'.Consistent := by
  cases a with
  | pushScope reuse =>
    cases taken
    exact known.pushScope reuse
  | popScope reuse =>
    cases taken
    exact known.popScope reuse
  | makeTempVariableName flags reserved p pre suf => exact known.makeTempVariableName allowed taken
  | makeUniqueName baseName optimistic isScoped p pre suf => exact known.makeUniqueName allowed taken
end

/-- A generator that has not been used, for a file and its global names. -/
def new (fileLevelIdentifiers : Option (Finset Text)) (hasGlobalName : Option (Text → Bool)) : NameGenerator :=
  { fileLevelIdentifiers, hasGlobalName }

theorem consistent_new (ids : Option (Finset Text)) (global : Option (Text → Bool)) : (new ids global).Consistent where
  each p scope listed := by cases p <;> cases listed
  nested p := by cases p <;> exact List.Pairwise.nil

/-- In runs whose calls come to no unrecorded temporary, generated names do not conflict. -/
theorem names_never_conflict (ids : Option (Finset Text)) (global : Option (Text → Bool)) {g : NameGenerator}
    (run : Reaches step Permitted (new ids global) g) : g.NeverConflict :=
  (run.keeps Consistent (consistent_new ids global) fun _ _ _ known allowed taken =>
    known.step allowed taken).neverConflict

/-- A temporary, and a unique name with another base. -/
theorem names_never_conflict_two : ∃ g, steps step (new none none)
    [.makeTempVariableName tempFlagsAuto false false [] [], .makeUniqueName ['x'] true false false [] []] = some g ∧
    g.NeverConflict := by
  have first : Permitted (new none none) (.makeTempVariableName tempFlagsAuto false false [] []) :=
    fun _ => ⟨.inl rfl, ⟨0, by decide +kernel⟩, fun y listed => by cases listed⟩
  have second : ∀ g₁, step (new none none) (.makeTempVariableName tempFlagsAuto false false [] []) = some g₁ →
      g₁.Permitted (.makeUniqueName ['x'] true false false [] []) := by
    intro g₁ taken
    have names : (step (new none none) (.makeTempVariableName tempFlagsAuto false false [] [])).map
        (fun g => (g.innermost false).names.map (·.name)) = some [['_', 'a']] := by decide +kernel
    rw [taken, Option.map_some, Option.some_inj] at names
    intro y listed _ tried
    obtain same : y.name = ['_', 'a'] := mem_singleton.mp (names ▸ mem_map_of_mem listed)
    rw [same] at tried
    rcases tried with ⟨-, verbatim⟩ | ⟨-, i, -, numbered, -⟩
    · exact absurd verbatim (by decide)
    · cases numbered
  have allowed : Allowed step Permitted (new none none) [.makeTempVariableName tempFlagsAuto false false [] [],
      .makeUniqueName ['x'] true false false [] []] := ⟨first, fun g₁ taken => ⟨second g₁ taken, fun _ _ => trivial⟩⟩
  exact ⟨_, rfl, names_never_conflict none none (reaches_of_allowed allowed rfl)⟩

/-- A temporary is handed out again as a unique name. -/
theorem names_conflict : ¬∀ ids global g, Reaches step (fun _ _ => True) (new ids global) g → g.NeverConflict := by
  intro conflict_free
  have calls : ((steps step (new none none) [.makeTempVariableName tempFlagsAuto false false [] [],
      .makeUniqueName ['_', 'a'] true false false [] []]).map fun g => g.nameGenerationScope.map fun scope =>
        scope.names.map (·.name)) = some [[['_', 'a'], ['_', 'a']]] := by decide +kernel
  obtain ⟨g, ran, names⟩ := Option.map_eq_some_iff.mp calls
  have free := conflict_free none none g (reaches_of_steps ran)
  obtain ⟨scope, listed, twice⟩ : ∃ scope ∈ g.nameGenerationScope, scope.names.map (·.name) = [['_', 'a'], ['_', 'a']] :=
    mem_map.mp (names ▸ mem_singleton_self _)
  exact absurd (twice ▸ free.distinct false scope listed) (by decide)

end NameGenerator

end TypeScriptRs.Printer
