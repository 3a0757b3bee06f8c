import TypeScriptRs.Semver.Overflow
import TypeScriptRs.Semver.RangeGrammar

/-! What a printed range means when it is read again. -/
namespace TypeScriptRs.Semver
open Machine List Outcome

structure Version.Printable (v : Version) : Prop where
  inRange : v.InRange
  prerelease : Qualifier v.prerelease
  build : Qualifier v.build

structure VersionComparator.Plain (c : VersionComparator) : Prop where
  tilde : c.operator ≠ .tilde
  caret : c.operator ≠ .caret
  operand : c.operand.Printable

section
variable {text : Text} {n : Nat} {operator : ComparatorOperator} {cs : List VersionComparator}

theorem printable_of_readPartial {result : PartialVersion} (read : readPartial text = some result) :
    result.version.Printable := by
  have inRange := inRange_of_readPartial read
  obtain ⟨p, shaped, -, numbers, -, rfl⟩ := readPartial_eq_some.mp read
  exact ⟨inRange, shaped.prerelease, shaped.build⟩

theorem qualifier_zero : Qualifier [['0']] := ⟨by decide, by decide⟩

theorem increment_lt {m : Nat} (increased : increment n = .ok m) : m < 2 ^ 32 := by
  unfold increment at increased
  split at increased
  · rename_i fits
    cases increased
    exact fits
  · cases increased

theorem printable_increment {v : Nat → Version} {next : Version}
    (increased : (increment n >>= fun m => pure (v m)) = Outcome.ok next)
    (inRange : ∀ m, m < 2 ^ 32 → (v m).InRange) (bare : ∀ m, (v m).prerelease = [] ∧ (v m).build = []) :
    next.Printable := by
  obtain ⟨m, found, shape⟩ := bind_eq_ok increased
  cases shape
  refine ⟨inRange m (increment_lt found), ?_, ?_⟩
  · rw [(bare m).1]
    exact qualifier_nil
  · rw [(bare m).2]
    exact qualifier_nil

variable {v next : Version} {result : PartialVersion}

theorem printable_incrementMajor (increased : v.incrementMajor = .ok next) : next.Printable :=
  printable_increment increased (fun _ fits => ⟨fits, Nat.two_pow_pos 32, Nat.two_pow_pos 32⟩) fun _ => ⟨rfl, rfl⟩

theorem printable_incrementMinor (fits : v.InRange) (increased : v.incrementMinor = .ok next) : next.Printable :=
  printable_increment increased (fun _ fits' => ⟨fits.major, fits', Nat.two_pow_pos 32⟩) fun _ => ⟨rfl, rfl⟩

theorem printable_incrementPatch (fits : v.InRange) (increased : v.incrementPatch = .ok next) : next.Printable :=
  printable_increment increased (fun _ fits' => ⟨fits.major, fits.minor, fits'⟩) fun _ => ⟨rfl, rfl⟩

theorem printable_nextVersion (fits : result.version.InRange) (increased : nextVersion result = .ok next) : next.Printable := by
  unfold nextVersion at increased
  split at increased
  · exact printable_incrementMajor increased
  · exact printable_incrementMinor fits increased

theorem printable_caretVersion (fits : result.version.InRange) (increased : caretVersion result = .ok next) : next.Printable := by
  unfold caretVersion at increased
  split at increased
  · exact printable_incrementMajor increased
  · split at increased
    · exact printable_incrementMinor fits increased
    · exact printable_incrementPatch fits increased

theorem Version.Printable.lowest (printable : v.Printable) : { v with prerelease := [['0']] : Version }.Printable :=
  ⟨⟨printable.inRange.major, printable.inRange.minor, printable.inRange.patch⟩, qualifier_zero, printable.build⟩

theorem printable_versionZero : versionZero.Printable :=
  ⟨⟨by decide, by decide, by decide⟩, qualifier_zero, qualifier_nil⟩

def AllPlain (cs : List VersionComparator) : Prop := ∀ c ∈ cs, c.Plain

theorem allPlain_nil : AllPlain [] := by rintro _ ⟨⟩

theorem allPlain_cons (tilde : operator ≠ .tilde) (caret : operator ≠ .caret)
    (operand : v.Printable) (rest : AllPlain cs) : AllPlain (⟨operator, v⟩ :: cs) :=
  forall_mem_cons.mpr ⟨⟨tilde, caret, operand⟩, rest⟩

theorem allPlain_append {front back : List VersionComparator} (first : AllPlain front) (second : AllPlain back) :
    AllPlain (front ++ back) := forall_mem_append.mpr ⟨first, second⟩

theorem allPlain_hyphen {leftResult : PartialVersion} (left : leftResult.version.Printable)
    (right : result.version.Printable) (expands : hyphenComparators leftResult result = .ok cs) : AllPlain cs := by
  unfold hyphenComparators at expands
  extract_lets lower at expands
  have lowerPlain : AllPlain lower := by
    unfold lower
    split
    · exact allPlain_cons (by decide) (by decide) left allPlain_nil
    · exact allPlain_nil
  split at expands
  · split at expands
    · obtain ⟨operand, increased, shape⟩ := bind_eq_ok expands
      obtain rfl := Outcome.ok.inj shape
      have above := printable_nextVersion right.inRange increased
      exact allPlain_append lowerPlain (allPlain_cons (by decide) (by decide) above allPlain_nil)
    · obtain rfl := Outcome.ok.inj expands
      exact allPlain_append lowerPlain (allPlain_cons (by decide) (by decide) right allPlain_nil)
  · obtain rfl := Outcome.ok.inj expands
    exact lowerPlain

theorem allPlain_between {outcome : Outcome Version} {upper : Version → Version}
    (low : v.Printable) (high : ∀ next, outcome = .ok next → (upper next).Printable)
    (expands : (outcome >>= fun next => pure [⟨.greaterThanEqual, v⟩, ⟨.lessThan, upper next⟩]) = Outcome.ok cs) :
    AllPlain cs := by
  obtain ⟨next, increased, shape⟩ := bind_eq_ok expands
  obtain rfl := Outcome.ok.inj shape
  exact allPlain_cons (by decide) (by decide) low (allPlain_cons (by decide) (by decide) (high next increased) allPlain_nil)

theorem allPlain_comparatorsOf (printable : result.version.Printable) (expands : comparatorsOf operator result = .ok cs) : AllPlain cs := by
  have above : ∀ next, nextVersion result = .ok next → next.Printable := fun _ =>
    printable_nextVersion printable.inRange
  have single : ∀ {o : ComparatorOperator} {operand : Version}, o ≠ .tilde → o ≠ .caret → operand.Printable →
      Outcome.ok [⟨o, operand⟩] = Outcome.ok cs → AllPlain cs := by
    intro o operand tilde caret inner shape
    obtain rfl := Outcome.ok.inj shape
    exact allPlain_cons tilde caret inner allPlain_nil
  unfold comparatorsOf at expands
  split at expands
  · extract_lets minorOrPatch at expands
    have lowest : (if minorOrPatch then { result.version with prerelease := [['0']] } else result.version).Printable := by
      split
      · exact printable.lowest
      · exact printable
    cases operator with
    | tilde => exact allPlain_between printable above expands
    | caret => exact allPlain_between printable (fun next => printable_caretVersion printable.inRange) expands
    | lessThan => exact single (by decide) (by decide) lowest expands
    | greaterThanEqual => exact single (by decide) (by decide) lowest expands
    | equal =>
      dsimp only at expands
      split at expands
      · exact allPlain_between printable.lowest (fun next increased => (above next increased).lowest) expands
      · exact single (by decide) (by decide) printable expands
    | lessThanEqual =>
      dsimp only at expands
      split at expands
      · obtain ⟨next, increased, shape⟩ := bind_eq_ok expands
        exact single (by decide) (by decide) (above next increased).lowest shape
      · exact single (by decide) (by decide) printable expands
    | greaterThan =>
      dsimp only at expands
      split at expands
      · obtain ⟨next, increased, shape⟩ := bind_eq_ok expands
        exact single (by decide) (by decide) (above next increased).lowest shape
      · exact single (by decide) (by decide) printable expands
  · split at expands
    · exact single (by decide) (by decide) printable_versionZero expands
    · obtain rfl := Outcome.ok.inj expands
      exact allPlain_nil

theorem allPlain_expansion {step : Step} (expansion : step.expansion = some (.ok cs)) : AllPlain cs := by
  cases step with
  | hyphen left right =>
    obtain ⟨leftResult, read, found⟩ := Option.bind_eq_some_iff.mp expansion
    obtain ⟨rightResult, read', expands⟩ := Option.map_eq_some_iff.mp found
    exact allPlain_hyphen (printable_of_readPartial read) (printable_of_readPartial read') expands
  | simple text =>
    obtain ⟨split, -, found⟩ := Option.bind_eq_some_iff.mp expansion
    obtain ⟨result, read, expands⟩ := Option.map_eq_some_iff.mp found
    exact allPlain_comparatorsOf (printable_of_readPartial read) expands

theorem allPlain_runSteps {steps : List Step} (run : runSteps steps = .ok (some cs)) : AllPlain cs := by
  obtain ⟨parts, each, rfl⟩ := runSteps_some run
  clear run
  induction each with
  | nil => exact allPlain_nil
  | cons expansion _ ih => exact allPlain_append (allPlain_expansion expansion) ih

theorem allPlain_of_parsed {range : VersionRange} {ok : Bool}
    (returned : tryParseVersionRange text = .ok (range, ok)) : ∀ cs ∈ range.alternatives, AllPlain cs := by
  have run := tryParseVersionRange_ok.mp returned
  cases ok with
  | false =>
    rcases runRanges_spec [] (rangesOf text) with ⟨-, fails⟩ | ⟨-, ⟨-, result, run'⟩ | ⟨-, run'⟩⟩
    · exact absurd ⟨_, run⟩ fails
    · cases (Prod.mk.inj (Outcome.ok.inj (run.symm.trans run'))).2
    · rw [(Prod.mk.inj (Outcome.ok.inj (run.symm.trans run'))).1]
      rintro _ ⟨⟩
  | true =>
    obtain ⟨later, each, shape⟩ := runRanges_true run
    rw [nil_append] at shape
    rw [shape]
    clear shape run returned
    generalize rangesOf text = ranges at each
    induction each with
    | nil => rintro _ ⟨⟩
    | cons first _ ih => exact forall_mem_cons.mpr ⟨allPlain_runSteps first, ih⟩
end

section
variable {c : VersionComparator} {cs : List VersionComparator}

theorem isWildcard_decimal (n : Nat) : isWildcard (decimal n) = false := by
  have digits := (isNumber_decimal n).2.1
  refine Bool.eq_false_iff.mpr fun wild => ?_
  rcases isWildcard_iff.mp wild with star | small | capital
  · exact absurd (digits '*' (by simp [star])) (by decide)
  · exact absurd (digits 'x' (by simp [small])) (by decide)
  · exact absurd (digits 'X' (by simp [capital])) (by decide)

theorem getUintComponent_decimal {n : Nat} (fits : n < 2 ^ 32) : getUintComponent (decimal n) = some n := by
  have value : Decimal.valueOf ((decimal n).map digitValue) = n := numberOf_decimal n
  rw [getUintComponent_numeric (isNumericIdentifier_eq_true.mpr (isNumber_decimal n)), value, if_pos fits]

theorem readPartial_toText {v : Version} (printable : v.Printable) :
    readPartial v.toText = some ⟨v, decimal v.major, decimal v.minor, decimal v.patch⟩ := by
  have xr : ∀ n, isXr (decimal n) = true := fun n =>
    isXr_iff.mpr (.inr (isNumericIdentifier_eq_true.mpr (isNumber_decimal n)))
  have shaped : v.pieces.Shaped := by
    refine ⟨cons_ne_nil _ _, le_rfl, fun short => absurd short (lt_irrefl 3), ?_, printable.prerelease,
      printable.build⟩
    intro part listed
    simp only [Version.pieces, mem_cons, not_mem_nil, or_false] at listed
    rcases listed with rfl | rfl | rfl
    · exact xr _
    · exact xr _
    · exact xr _
  have numbers : coreNumbers (decimal v.major) (decimal v.minor) (decimal v.patch) =
      some (v.major, v.minor, v.patch) := by
    unfold coreNumbers
    simp [isWildcard_decimal, getUintComponent_decimal printable.inRange.major,
      getUintComponent_decimal printable.inRange.minor, getUintComponent_decimal printable.inRange.patch]
  have read := shaped.readPartial_text
  rw [pieces_text] at read
  rw [read]
  exact congrArg (Option.map v.pieces.partialVersion) numbers

theorem comparatorsOf_plain (plain : c.Plain) :
    comparatorsOf c.operator ⟨c.operand, decimal c.operand.major, decimal c.operand.minor, decimal c.operand.patch⟩ =
      .ok [c] := by
  have tilde := plain.tilde
  have caret := plain.caret
  obtain ⟨operator, operand⟩ := c
  cases operator <;> simp_all [comparatorsOf, isWildcard_decimal, monad_pure]

theorem run_formatComparator (plain : c.Plain) : (Step.simple (formatComparator c)).run = .ok (some [c]) := by
  unfold formatComparator
  rw [Step.run, expansion_operator c.operator (readPartial_toText plain.operand), comparatorsOf_plain plain]
  rfl

theorem formatComparator_word (plain : c.Plain) : Words.IsWord isWhitespace (formatComparator c) ∧ '|' ∉ formatComparator c := by
  have atom := isRangeAtom_of_readPartial (readPartial_toText plain.operand)
  exact ⟨isWord_operator c.operator atom, bar_not_mem c.operator atom⟩

theorem formatComparator_ne_hyphen (c : VersionComparator) : formatComparator c ≠ ['-'] := by
  obtain ⟨operator, operand⟩ := c
  cases operator <;> simp [formatComparator, ComparatorOperator.asStr]

theorem runSteps_alternative (plain : AllPlain cs) : runSteps (stepsOf (cs.map formatComparator)) = .ok (some cs) := by
  have steps : stepsOf (cs.map formatComparator) = (cs.map formatComparator).map .simple := by
    refine stepsOf_simple ?_
    rintro ⟨left, right, shape, -⟩
    have middle : ['-'] ∈ cs.map formatComparator := by simp [shape]
    obtain ⟨c, -, same⟩ := mem_map.mp middle
    exact formatComparator_ne_hyphen c same
  rw [steps]
  clear steps
  induction cs with
  | nil => rfl
  | cons c cs ih =>
    obtain ⟨first, rest⟩ := forall_mem_cons.mp plain
    rw [map_cons, map_cons, runSteps, run_formatComparator first, monad_bind, bind_ok]
    rw [ih rest]
    rfl

theorem splitWhitespace_alternative (plain : AllPlain cs) : splitWhitespace (formatAlternative cs) = cs.map formatComparator := by
  refine (Words.spaced_intercalate (by decide) ?_).words_eq
  intro word listed
  obtain ⟨c, member, rfl⟩ := mem_map.mp listed
  exact (formatComparator_word (plain c member)).1

theorem bar_not_mem_alternative (plain : AllPlain cs) : '|' ∉ formatAlternative cs := by
  intro listed
  rcases Split.mem_intercalate listed with space | ⟨word, member, inside⟩
  · exact absurd space (by decide)
  · obtain ⟨c, here, rfl⟩ := mem_map.mp member
    exact (formatComparator_word (plain c here)).2 inside

theorem words_bars {pieces : List Text} (some_ : pieces ≠ []) (free : ∀ piece ∈ pieces, '|' ∉ piece) :
    (Words.splitPair '|' ([' ', '|', '|', ' '].intercalate pieces)).map splitWhitespace =
      pieces.map splitWhitespace := by
  have space : Words.AllBlank isWhitespace [' '] := by
    intro x listed
    rw [mem_singleton.mp listed]
    decide
  induction pieces with
  | nil => exact absurd rfl some_
  | cons first later ih =>
    obtain ⟨here, rest⟩ := forall_mem_cons.mp free
    cases later with
    | nil => rw [intercalate_singleton, Words.splitPair_free here]
    | cons second later =>
      have inner := ih (cons_ne_nil _ _) rest
      have free' : '|' ∉ first ++ [' '] := by simp [here]
      have shape : [' ', '|', '|', ' '].intercalate (first :: second :: later) =
          (first ++ [' ']) ++ '|' :: '|' :: ([' '] ++ [' ', '|', '|', ' '].intercalate (second :: later)) := by
        simp
      have spaceFree : '|' ∉ [' '] := by decide
      rw [shape, Words.splitPair_append free', Words.splitPair, if_pos ⟨rfl, rfl⟩, Words.splitPair_append spaceFree]
      obtain ⟨head, tail, cut⟩ := exists_cons_of_ne_nil
        (Words.splitPair_ne_nil '|' ([' ', '|', '|', ' '].intercalate (second :: later)))
      rw [cut, map_cons] at inner
      rw [cut, modifyHead_cons, modifyHead_cons, map_cons, map_cons, map_cons, ← inner]
      unfold splitWhitespace
      rw [append_nil, Words.words_append_gap first space, Words.words_gap_append space]
end

section
variable {alternatives : List (List VersionComparator)}

theorem runRanges_printed (plain : ∀ cs ∈ alternatives, AllPlain cs) (before : List (List VersionComparator)) :
    runRanges before ((alternatives.map fun cs => cs.map formatComparator).filter fun words => !words.isEmpty) =
      .ok (before ++ alternatives.filter fun cs => !cs.isEmpty, true) := by
  induction alternatives generalizing before with
  | nil =>
    rw [filter_nil, append_nil]
    rfl
  | cons cs rest ih =>
    obtain ⟨first, later⟩ := forall_mem_cons.mp plain
    cases cs with
    | nil =>
      exact ih later before
    | cons c cs =>
      rw [map_cons, filter_cons_of_pos (by simp), filter_cons_of_pos (by simp), runRanges,
        runSteps_alternative first, monad_bind, bind_ok]
      dsimp only
      rw [ih later, append_assoc, singleton_append]

/-- The alternatives that are printed: blank text is not read back, and a star stands for none. -/
def reprinted (alternatives : List (List VersionComparator)) : List (List VersionComparator) :=
  if [' ', '|', '|', ' '].intercalate (alternatives.map formatAlternative) = [] then [[]]
  else alternatives.filter fun cs => !cs.isEmpty

theorem tryParseVersionRange_printed {range : VersionRange} (plain : ∀ cs ∈ range.alternatives, AllPlain cs) :
    tryParseVersionRange range.toText = .ok (⟨reprinted range.alternatives⟩, true) := by
  obtain ⟨alternatives⟩ := range
  unfold VersionRange.toText formatDisjunction reprinted
  extract_lets s
  split
  · decide
  rename_i some_
  have filled : alternatives ≠ [] := by
    rintro rfl
    exact some_ rfl
  have free : ∀ piece ∈ alternatives.map formatAlternative, '|' ∉ piece := by
    intro piece listed
    obtain ⟨cs, member, rfl⟩ := mem_map.mp listed
    exact bar_not_mem_alternative (plain cs member)
  have words : (alternatives.map formatAlternative).map splitWhitespace =
      alternatives.map fun cs => cs.map formatComparator := by
    rw [map_map]
    exact map_congr_left fun cs listed => splitWhitespace_alternative (plain cs listed)
  have ranges : rangesOf s = (alternatives.map fun cs => cs.map formatComparator).filter fun words => !words.isEmpty := by
    unfold rangesOf
    rw [words_bars (mt map_eq_nil_iff.mp filled) free, words]
  rw [tryParseVersionRange_ok, ranges]
  exact runRanges_printed plain []

theorem testAlternative_returns {cs : List VersionComparator} (plain : AllPlain cs) (v : Version) :
    ∃ b, testAlternative cs v = .ok b := by
  induction cs with
  | nil => exact ⟨true, rfl⟩
  | cons c cs ih =>
    obtain ⟨first, rest⟩ := forall_mem_cons.mp plain
    obtain ⟨later, tested⟩ := ih rest
    have returns : ∃ b, testComparator c v = .ok b := by
      have tilde := first.tilde
      have caret := first.caret
      obtain ⟨operator, operand⟩ := c
      cases operator with
      | tilde => exact absurd rfl tilde
      | caret => exact absurd rfl caret
      | _ => exact ⟨_, rfl⟩
    obtain ⟨b, tested'⟩ := returns
    rw [testAlternative, tested', monad_bind, bind_ok]
    split
    · exact ⟨false, rfl⟩
    · exact ⟨later, tested⟩

theorem testAny_eq (plain : ∀ cs ∈ alternatives, AllPlain cs) (v : Version) : ∃ b, testAny alternatives v = .ok b ∧
      (b = true ↔ ∃ cs ∈ alternatives, testAlternative cs v = .ok true) := by
  induction alternatives with
  | nil => exact ⟨false, rfl, by simp⟩
  | cons cs rest ih =>
    obtain ⟨first, later⟩ := forall_mem_cons.mp plain
    obtain ⟨b, tested⟩ := testAlternative_returns first v
    obtain ⟨b', tested', exact_⟩ := ih later
    rw [testAny, tested, monad_bind, bind_ok]
    cases b with
    | true => exact ⟨true, rfl, iff_of_true rfl ⟨cs, by simp, tested⟩⟩
    | false =>
      refine ⟨b', tested', exact_.trans ?_⟩
      simp [tested]

theorem testAlternative_nil (v : Version) : testAlternative [] v = .ok true := rfl

theorem test_eq {range : VersionRange} (plain : ∀ cs ∈ range.alternatives, AllPlain cs) (v : Version) :
    ∃ b, range.test v = .ok b ∧
      (b = true ↔ range.alternatives = [] ∨ ∃ cs ∈ range.alternatives, testAlternative cs v = .ok true) := by
  unfold VersionRange.test testDisjunction
  split
  · rename_i none
    exact ⟨true, rfl, iff_of_true rfl (.inl none)⟩
  · rename_i some_
    obtain ⟨b, tested, exact_⟩ := testAny_eq plain v
    exact ⟨b, tested, exact_.trans (or_iff_right some_).symm⟩
end

def Version.IsParsed (v : Version) : Prop := ∃ s, tryParseVersion s = .ok v

/-- The printed range is read again, and accepts the same versions. -/
def PrintedAlike (range : VersionRange) : Prop :=
  ∃ again, tryParseVersionRange range.toText = .ok (again, true) ∧
    ∀ v : Version, v.IsParsed → again.test v = range.test v

section
variable {alternatives : List (List VersionComparator)}

theorem formatAlternative_ne_nil {cs : List VersionComparator} (some_ : cs ≠ []) : formatAlternative cs ≠ [] := by
  obtain ⟨c, rest, rfl⟩ := exists_cons_of_ne_nil some_
  have first : formatComparator c ≠ [] := by
    obtain ⟨operator, operand⟩ := c
    cases operator <;> simp [formatComparator, ComparatorOperator.asStr]
  unfold formatAlternative
  cases rest with
  | nil => simpa using first
  | cons second rest =>
    simp

theorem reprinted_eq (some_ : ∃ cs ∈ alternatives, cs ≠ []) :
    reprinted alternatives = alternatives.filter fun cs => !cs.isEmpty := by
  unfold reprinted
  rw [if_neg]
  intro blank
  obtain ⟨cs, listed, filled⟩ := some_
  cases alternatives with
  | nil => cases listed
  | cons first rest =>
    cases rest with
    | nil =>
      rw [mem_singleton.mp listed] at filled
      exact formatAlternative_ne_nil filled (by simpa using blank)
    | cons second rest =>
      simp at blank

theorem reprinted_blank (all : ∀ cs ∈ alternatives, cs = []) : reprinted alternatives = [] ∨ [] ∈ reprinted alternatives := by
  unfold reprinted
  split
  · exact .inr (by simp)
  · refine .inl (filter_eq_nil_iff.mpr ?_)
    intro cs listed
    simp [all cs listed]

theorem mem_reprinted {cs : List VersionComparator} (listed : cs ∈ reprinted alternatives) : cs = [] ∨ cs ∈ alternatives := by
  unfold reprinted at listed
  split at listed
  · exact .inl (mem_singleton.mp listed)
  · exact .inr (mem_filter.mp listed).1

theorem accepts_blank {v : Version} (blank : alternatives = [] ∨ [] ∈ alternatives) :
    alternatives = [] ∨ ∃ cs ∈ alternatives, testAlternative cs v = .ok true :=
  blank.imp_right fun listed => ⟨[], listed, testAlternative_nil v⟩
end

/-- Printing keeps the meaning exactly if no alternative is blank, or all are, or those that
are not accept every version. -/
theorem printedAlike_iff {text : Text} {range : VersionRange} {ok : Bool}
    (returned : tryParseVersionRange text = .ok (range, ok)) : PrintedAlike range ↔
      [] ∉ range.alternatives ∨ (∀ cs ∈ range.alternatives, cs = []) ∨
        ∀ v : Version, v.IsParsed → ∃ cs ∈ range.alternatives, cs ≠ [] ∧ testAlternative cs v = .ok true := by
  have plain := allPlain_of_parsed returned
  have plain' : ∀ cs ∈ reprinted range.alternatives, AllPlain cs := by
    intro cs listed
    rcases mem_reprinted listed with rfl | member
    · exact allPlain_nil
    · exact plain cs member
  -- Both ranges' tests return, so that they are alike when they accept the same versions.
  have alike : PrintedAlike range ↔ ∀ v : Version, v.IsParsed →
      ((reprinted range.alternatives = [] ∨ ∃ cs ∈ reprinted range.alternatives, testAlternative cs v = .ok true) ↔
        (range.alternatives = [] ∨ ∃ cs ∈ range.alternatives, testAlternative cs v = .ok true)) := by
    have read := tryParseVersionRange_printed plain
    have tests : ∀ v : Version, VersionRange.test ⟨reprinted range.alternatives⟩ v = range.test v ↔
        ((reprinted range.alternatives = [] ∨ ∃ cs ∈ reprinted range.alternatives, testAlternative cs v = .ok true) ↔
          (range.alternatives = [] ∨ ∃ cs ∈ range.alternatives, testAlternative cs v = .ok true)) := by
      intro v
      obtain ⟨b, tested, accepts⟩ := test_eq plain v
      obtain ⟨b', tested', accepts'⟩ := @test_eq ⟨reprinted range.alternatives⟩ plain' v
      rw [tested, tested', ← accepts, ← accepts', Outcome.ok.injEq]
      exact Bool.eq_iff_iff
    constructor
    · rintro ⟨again, read', same⟩ v parsed
      obtain ⟨rfl, -⟩ := Prod.mk.inj (Outcome.ok.inj (read.symm.trans read'))
      exact (tests v).mp (same v parsed)
    · exact fun same => ⟨_, read, fun v parsed => (tests v).mpr (same v parsed)⟩
  rw [alike]
  by_cases blank : [] ∈ range.alternatives
  · by_cases all : ∀ cs ∈ range.alternatives, cs = []
    · refine iff_of_true ?_ (.inr (.inl all))
      exact fun v _ => iff_of_true (accepts_blank (reprinted_blank all)) (accepts_blank (.inr blank))
    have some_ : ∃ cs ∈ range.alternatives, cs ≠ [] := by simpa using all
    have filled : reprinted range.alternatives ≠ [] := by
      obtain ⟨cs, listed, other⟩ := some_
      rw [reprinted_eq ⟨cs, listed, other⟩]
      exact ne_nil_of_mem (mem_filter.mpr ⟨listed, by simp [other]⟩)
    have open_ : ∀ v : Version,
        ((reprinted range.alternatives = [] ∨ ∃ cs ∈ reprinted range.alternatives, testAlternative cs v = .ok true) ↔
          (range.alternatives = [] ∨ ∃ cs ∈ range.alternatives, testAlternative cs v = .ok true)) ↔
        ∃ cs ∈ range.alternatives, cs ≠ [] ∧ testAlternative cs v = .ok true := by
      intro v
      rw [iff_true_right (accepts_blank (.inr blank)), or_iff_right filled, reprinted_eq some_]
      simp [and_assoc]
    constructor
    · exact fun same => .inr (.inr fun v parsed => (open_ v).mp (same v parsed))
    · rintro (none | every | accepts)
      · exact absurd blank none
      · exact absurd every all
      · exact fun v parsed => (open_ v).mpr (accepts v parsed)
  · refine iff_of_true ?_ (.inl blank)
    intro v _
    by_cases all : ∀ cs ∈ range.alternatives, cs = []
    · have none : range.alternatives = [] := by
        cases shape : range.alternatives with
        | nil => rfl
        | cons cs rest =>
          rw [shape] at all blank
          exact absurd (by simp [all cs (by simp)]) blank
      exact iff_of_true (accepts_blank (reprinted_blank all)) (.inl none)
    have some_ : ∃ cs ∈ range.alternatives, cs ≠ [] := by simpa using all
    have same : reprinted range.alternatives = range.alternatives := by
      rw [reprinted_eq some_, filter_eq_self]
      intro cs listed
      have other : cs ≠ [] := by
        rintro rfl
        exact blank listed
      simp [other]
    rw [same]

theorem printedAlike_release : PrintedAlike ⟨[[⟨.equal, ⟨1, 0, 0, [], []⟩⟩]]⟩ := by
  have returned : tryParseVersionRange "1.0.0".toList = .ok (⟨[[⟨.equal, ⟨1, 0, 0, [], []⟩⟩]]⟩, true) := by decide
  exact (printedAlike_iff returned).mpr (.inl (by decide))

/-- A star beside another alternative is printed as a blank, which is not read again. -/
theorem blankAlternative_lost :
    tryParseVersionRange "* || 1.0.0".toList = .ok (⟨[[], [⟨.equal, ⟨1, 0, 0, [], []⟩⟩]]⟩, true) ∧
      ¬PrintedAlike ⟨[[], [⟨.equal, ⟨1, 0, 0, [], []⟩⟩]]⟩ := by
  refine ⟨by decide, ?_⟩
  rintro ⟨again, read, same⟩
  have read' : tryParseVersionRange (VersionRange.toText ⟨[[], [⟨.equal, ⟨1, 0, 0, [], []⟩⟩]]⟩) =
      .ok (⟨[[⟨.equal, ⟨1, 0, 0, [], []⟩⟩]]⟩, true) := by decide
  obtain ⟨rfl, -⟩ := Prod.mk.inj (Outcome.ok.inj (read'.symm.trans read))
  have two : Version.IsParsed ⟨2, 0, 0, [], []⟩ := ⟨"2.0.0".toList, by decide⟩
  exact absurd (same ⟨2, 0, 0, [], []⟩ two) (by decide)

end TypeScriptRs.Semver
