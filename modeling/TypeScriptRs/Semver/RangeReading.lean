import TypeScriptRs.Semver.PartialVersions

/-! A range read word by word. -/
namespace TypeScriptRs.Semver
open Machine List Outcome

inductive Step where
  | hyphen (left right : Text)
  | simple (text : Text)
  deriving DecidableEq

/-- The comparators of a step, or nothing where the parser rejects it. -/
def Step.expansion : Step → Option (Outcome (List VersionComparator))
  | .hyphen left right =>
    (readPartial left).bind fun leftResult => (readPartial right).map fun rightResult =>
      hyphenComparators leftResult rightResult
  | .simple text =>
    (parseRange text).bind fun split => (readPartial split.2).map fun result =>
      comparatorsOf (split.1.getD .equal) result

def Step.Accepted (step : Step) : Prop := step.expansion.isSome = true

def Step.run (step : Step) : Outcome (Option (List VersionComparator)) :=
  match step.expansion with
  | none => pure none
  | some expansion => expansion >>= fun comparators => pure (some comparators)

def stepsOf : List Text → List Step
  | [left, middle, right] =>
    if middle = ['-'] && isRangeAtom left && isRangeAtom right then [.hyphen left right]
    else [.simple left, .simple middle, .simple right]
  | words => words.map .simple

def runSteps : List Step → Outcome (Option (List VersionComparator))
  | [] => pure (some [])
  | step :: rest => do
    match ← step.run with
    | none => pure none
    | some comparators =>
      let later ← runSteps rest
      pure (later.map fun tail => comparators ++ tail)

def runRanges (alternatives : List (List VersionComparator)) :
    List (List Text) → Outcome (List (List VersionComparator) × Bool)
  | [] => pure (alternatives, true)
  | words :: rest => do
    match ← runSteps (stepsOf words) with
    | none => pure ([], false)
    | some comparators => runRanges (alternatives ++ [comparators]) rest

def rangesOf (text : Text) : List (List Text) :=
  ((Words.splitPair '|' text).map splitWhitespace).filter fun words => !words.isEmpty

section
variable {c : Char} {text : Text}

def isAtomChar (c : Char) : Bool := isAsciiAlphanumeric c || c = '-' || c = '+' || c = '.' || c = '*'

theorem code_of_isAtomChar (atom : isAtomChar c = true) : 32 < c.toNat ∧ c.toNat < 127 := by
  have between : ∀ a b : Char, 32 < a.toNat → b.toNat < 127 → a ≤ c → c ≤ b → 32 < c.toNat ∧ c.toNat < 127 :=
    fun a b above below low high => ⟨Nat.lt_of_lt_of_le above low, Nat.lt_of_le_of_lt high below⟩
  simp only [isAtomChar, isAsciiAlphanumeric, isAsciiDigit, Bool.or_eq_true, Bool.and_eq_true,
    decide_eq_true_eq] at atom
  rcases atom with ((((((⟨low, high⟩ | ⟨low, high⟩) | ⟨low, high⟩) | rfl) | rfl) | rfl) | rfl)
  · exact between '0' '9' (by decide) (by decide) low high
  · exact between 'A' 'Z' (by decide) (by decide) low high
  · exact between 'a' 'z' (by decide) (by decide) low high
  all_goals decide

theorem code_of_isWhitespace (blank : isWhitespace c = true) : c.toNat ≤ 32 ∨ 127 ≤ c.toNat := by
  simp only [isWhitespace, mem_cons, not_mem_nil, or_false, Bool.or_eq_true, Bool.and_eq_true,
    decide_eq_true_eq] at blank
  omega

theorem solid_of_isAtomChar (atom : isAtomChar c = true) : isWhitespace c = false := by
  have code := code_of_isAtomChar atom
  refine Bool.eq_false_iff.mpr fun blank => ?_
  have code' := code_of_isWhitespace blank
  omega

theorem isRangeAtom_iff : isRangeAtom text = true ↔ text ≠ [] ∧ ∀ c ∈ text, isAtomChar c = true := by
  unfold isRangeAtom
  rw [Bool.and_eq_true, decide_eq_true_eq, all_eq_true]
  rfl

theorem isWord_of_isRangeAtom (atom : isRangeAtom text = true) : Words.IsWord isWhitespace text := by
  obtain ⟨some_, all⟩ := isRangeAtom_iff.mp atom
  exact ⟨some_, fun c listed => solid_of_isAtomChar (all c listed)⟩

theorem isWord_hyphen : Words.IsWord isWhitespace ['-'] := isWord_of_isRangeAtom (by decide)
end

section
variable {front text left right after : Text}

structure HyphenAt (front after left right : Text) : Prop where
  before : front.getLast?.any isWhitespace = true
  behind : after.head?.any isWhitespace = true
  trimLeft : trim front = left
  trimRight : trim after = right
  leftAtom : isRangeAtom left = true
  rightAtom : isRangeAtom right = true

theorem findHyphen_cons (front : Text) (c : Char) (after : Text) : findHyphen front (c :: after) =
      if c = '-' && front.getLast?.any isWhitespace && after.head?.any isWhitespace && isRangeAtom (trim front) &&
          isRangeAtom (trim after) then some (trim front, trim after)
      else findHyphen (front ++ [c]) after := rfl

theorem findHyphen_some (found : findHyphen front text = some (left, right)) :
    ∃ middle after, text = middle ++ '-' :: after ∧ HyphenAt (front ++ middle) after left right := by
  induction text generalizing front with
  | nil => cases found
  | cons c after ih =>
    rw [findHyphen_cons] at found
    split at found
    · rename_i here
      cases found
      simp only [Bool.and_eq_true, decide_eq_true_eq] at here
      obtain ⟨⟨⟨⟨rfl, before⟩, behind⟩, leftAtom⟩, rightAtom⟩ := here
      refine ⟨[], after, rfl, ?_⟩
      rw [append_nil]
      exact ⟨before, behind, rfl, rfl, leftAtom, rightAtom⟩
    · obtain ⟨middle, rest, rfl, place⟩ := ih found
      rw [append_assoc] at place
      exact ⟨c :: middle, rest, rfl, place⟩

theorem findHyphen_isSome {middle : Text} (place : HyphenAt (front ++ middle) after left right) :
    (findHyphen front (middle ++ '-' :: after)).isSome = true := by
  induction middle generalizing front with
  | nil =>
    rw [append_nil] at place
    rw [nil_append, findHyphen_cons, if_pos]
    · rfl
    · simp [place.before, place.behind, place.trimLeft, place.trimRight, place.leftAtom, place.rightAtom]
  | cons c middle ih =>
    rw [cons_append, findHyphen_cons]
    split
    · rfl
    · refine ih ?_
      rw [append_assoc]
      exact place

theorem HyphenAt.words (place : HyphenAt front after left right) :
    splitWhitespace (front ++ '-' :: after) = [left, ['-'], right] := by
  have leftWord := isWord_of_isRangeAtom place.leftAtom
  have rightWord := isWord_of_isRangeAtom place.rightAtom
  obtain ⟨b, last, blank⟩ := (Option.any_eq_true _ _).mp place.before
  obtain ⟨start, rfl⟩ := List.getLast?_eq_some_iff.mp last
  have ends : Words.Ends isWhitespace (b :: '-' :: after) := by
    rintro x ⟨⟩
    exact blank
  have ends' : Words.Ends isWhitespace after := by
    intro x first
    have behind := place.behind
    rw [first] at behind
    exact behind
  have gap : Words.AllBlank isWhitespace [b] := by
    intro x listed
    rw [mem_singleton.mp listed]
    exact blank
  have leftWords : splitWhitespace start = [left] := by
    have whole := Words.words_eq_singleton.mpr ⟨leftWord, place.trimLeft⟩
    rwa [Words.words_append_gap start gap] at whole
  have rightWords : splitWhitespace after = [right] := Words.words_eq_singleton.mpr ⟨rightWord, place.trimRight⟩
  have backWords : splitWhitespace ('-' :: after) = ['-'] :: splitWhitespace after :=
    Words.words_word_append isWord_hyphen ends'
  rw [rightWords] at backWords
  unfold splitWhitespace at leftWords backWords ⊢
  rw [append_assoc, singleton_append, Words.words_append ends, leftWords, Words.words_blank_cons blank,
    backWords]
  rfl

theorem hyphenAt_of_words (words : splitWhitespace text = [left, ['-'], right])
    (leftAtom : isRangeAtom left = true) (rightAtom : isRangeAtom right = true) :
    ∃ front after, text = front ++ '-' :: after ∧ HyphenAt front after left right := by
  have solid : isWhitespace '-' = false := by decide
  cases Words.words_eq_iff.mp words with
  | @word gap _ rest _ blanks leftWord ends spaced =>
    cases spaced with
    | @word gap' _ rest' _ blanks' _ ends' spaced' =>
      cases spaced' with
      | @word gap'' _ rest'' _ blanks'' rightWord _ spaced'' =>
        cases spaced'' with
        | none tailBlanks =>
          refine ⟨gap ++ left ++ gap', gap'' ++ right ++ rest'', by simp, ?_, ?_, ?_, ?_, leftAtom, rightAtom⟩
          · cases gap' using List.reverseRecOn with
            | nil =>
              have blank := ends '-' rfl
              cases blank.symm.trans solid
            | append_singleton start b =>
              rw [← append_assoc, List.getLast?_concat]
              exact blanks' b (by simp)
          · obtain ⟨x, tail, shape⟩ := exists_cons_of_ne_nil rightWord.1
            cases head : (gap'' ++ right ++ rest'').head? with
            | none => simp [shape] at head
            | some y => exact ends' y head
          · exact Words.trim_of_isWord_around blanks leftWord blanks'
          · exact Words.trim_of_isWord_around blanks'' rightWord tailBlanks

theorem parseHyphenRange_eq_some : parseHyphenRange text = some (left, right) ↔
    splitWhitespace text = [left, ['-'], right] ∧ isRangeAtom left = true ∧ isRangeAtom right = true := by
  have sound : ∀ left right, parseHyphenRange text = some (left, right) →
      splitWhitespace text = [left, ['-'], right] ∧ isRangeAtom left = true ∧ isRangeAtom right = true := by
    intro left right found
    obtain ⟨middle, after, rfl, place⟩ := findHyphen_some found
    exact ⟨place.words, place.leftAtom, place.rightAtom⟩
  constructor
  · exact sound left right
  rintro ⟨words, leftAtom, rightAtom⟩
  obtain ⟨front, after, rfl, place⟩ := hyphenAt_of_words words leftAtom rightAtom
  have place' : HyphenAt ([] ++ front) after left right := place
  obtain ⟨⟨left', right'⟩, found⟩ := Option.isSome_iff_exists.mp (findHyphen_isSome place')
  have same := words.symm.trans (sound left' right' found).1
  simp only [List.cons.injEq, and_true, true_and] at same
  rw [same.1, same.2]
  exact found
end

section
variable {op : Option ComparatorOperator} {text : Text}

theorem parseComparator_of_none (read : readPartial text = none) : parseComparator op text = pure ([], false) := by
  unfold parseComparator
  rw [parsePartial_of_none read]
  rfl

theorem parseComparator_of_some {result : PartialVersion} (read : readPartial text = some result) :
    parseComparator op text = comparatorsOf (op.getD .equal) result >>= fun comparators => pure (comparators, true) := by
  unfold parseComparator
  rw [parsePartial_of_some read]
  rfl

theorem parseSimples_eq {words : List Text} (each : ∀ word ∈ words, Words.IsWord isWhitespace word) :
    parseSimples words = runSteps (words.map .simple) := by
  induction words with
  | nil => rfl
  | cons word rest ih =>
    have later := ih fun other listed => each other (mem_cons_of_mem _ listed)
    have same : trim word = word := Words.trim_of_isWord (each word (by simp))
    rw [parseSimples, same, map_cons, runSteps, Step.run, Step.expansion, later]
    cases split : parseRange word with
    | none => rfl
    | some pair =>
      obtain ⟨op, text⟩ := pair
      dsimp only [Option.bind_some]
      cases read : readPartial text with
      | none =>
        rw [parseComparator_of_none read]
        rfl
      | some result =>
        rw [parseComparator_of_some read]
        dsimp only [Option.map_some]
        cases comparatorsOf (op.getD .equal) result with
        | ok comparators => rfl
        | err message => rfl
        | panic message => rfl

theorem runSteps_singleton (step : Step) : runSteps [step] = step.run := by
  rw [runSteps]
  cases step.run with
  | ok result =>
    cases result with
    | none => rfl
    | some comparators => simp [runSteps, monad_bind, monad_pure]
  | err message => rfl
  | panic message => rfl

theorem parseHyphen_eq (left right : Text) :
    (parseHyphen left right >>= fun parsed => pure (whenOk parsed)) = (Step.hyphen left right).run := by
  unfold parseHyphen
  rw [Step.run, Step.expansion]
  cases read : readPartial left with
  | none =>
    rw [parsePartial_of_none read]
    rfl
  | some leftResult =>
    rw [parsePartial_of_some read]
    cases read' : readPartial right with
    | none =>
      rw [parsePartial_of_none read']
      rfl
    | some rightResult =>
      rw [parsePartial_of_some read']
      dsimp only [Option.bind_some, Option.map_some]
      cases hyphenComparators leftResult rightResult with
      | ok comparators => rfl
      | err message => rfl
      | panic message => rfl

theorem stepsOf_hyphen {left right : Text} (leftAtom : isRangeAtom left = true) (rightAtom : isRangeAtom right = true) :
    stepsOf [left, ['-'], right] = [.hyphen left right] := by
  unfold stepsOf
  simp [leftAtom, rightAtom]

theorem stepsOf_simple {words : List Text}
    (plain : ¬∃ left right, words = [left, ['-'], right] ∧ isRangeAtom left = true ∧ isRangeAtom right = true) :
    stepsOf words = words.map .simple := by
  unfold stepsOf
  split
  · rename_i left middle right
    rw [if_neg]
    · rfl
    · intro hyphen
      simp only [Bool.and_eq_true, decide_eq_true_eq] at hyphen
      obtain ⟨⟨rfl, leftAtom⟩, rightAtom⟩ := hyphen
      exact plain ⟨left, right, rfl, leftAtom, rightAtom⟩
  · rfl

theorem parseOne_eq (r : Text) : parseOne r = runSteps (stepsOf (splitWhitespace r)) := by
  unfold parseOne
  cases found : parseHyphenRange r with
  | none =>
    rw [stepsOf_simple]
    · exact parseSimples_eq fun word listed => Words.isWord_of_mem listed
    · rintro ⟨left, right, atoms⟩
      rw [parseHyphenRange_eq_some.mpr atoms] at found
      cases found
  | some pair =>
    obtain ⟨left, right⟩ := pair
    obtain ⟨words, leftAtom, rightAtom⟩ := parseHyphenRange_eq_some.mp found
    rw [words, stepsOf_hyphen leftAtom rightAtom, runSteps_singleton]
    exact parseHyphen_eq left right

theorem splitWhitespace_trim (text : Text) : splitWhitespace (trim text) = splitWhitespace text := Words.words_trim text

theorem parseRanges_eq (alternatives : List (List VersionComparator)) (pieces : List Text) : parseRanges alternatives pieces =
      runRanges alternatives ((pieces.map splitWhitespace).filter fun words => !words.isEmpty) := by
  induction pieces generalizing alternatives with
  | nil => rfl
  | cons r rest ih =>
    rw [parseRanges, map_cons]
    by_cases blank : trim r = []
    · have none : splitWhitespace r = [] := Words.words_eq_nil.mpr (Words.trim_eq_nil.mp blank)
      rw [if_pos blank, none, filter_cons_of_neg (by simp), ih]
    have some_ : splitWhitespace r ≠ [] := fun none =>
      blank (Words.trim_eq_nil.mpr (Words.words_eq_nil.mp none))
    rw [if_neg blank, filter_cons_of_pos (by simp [some_]), runRanges, parseOne_eq, splitWhitespace_trim]
    cases runSteps (stepsOf (splitWhitespace r)) with
    | ok result =>
      cases result with
      | none => rfl
      | some comparators => exact ih (alternatives ++ [comparators])
    | err message => rfl
    | panic message => rfl

theorem parseAlternatives_eq (text : Text) : parseAlternatives text = runRanges [] (rangesOf text) := by
  have solid : isWhitespace '|' = false := by decide
  have pieces := Words.words_splitPair_trim solid text
  unfold parseAlternatives rangesOf
  rw [parseRanges_eq]
  unfold trim splitWhitespace
  rw [pieces]
end

section
variable {step : Step} {rest : List Step}

def Step.Returns (step : Step) : Prop := ∃ result, step.run = .ok result

/-- The parser stops at the first step that it rejects, and returns from every one before. -/
def Guarded (steps : List Step) : Prop :=
  ∀ before step after, steps = before ++ step :: after → (∀ s ∈ before, s.Accepted) → step.Returns

def AllAccepted (steps : List Step) : Prop := ∀ step ∈ steps, step.Accepted

theorem guarded_nil : Guarded [] := by
  intro before step after shape
  cases before with
  | nil => cases shape
  | cons => cases shape

theorem guarded_cons : Guarded (step :: rest) ↔ step.Returns ∧ (step.Accepted → Guarded rest) := by
  constructor
  · intro guarded
    refine ⟨guarded [] step rest rfl (by rintro _ ⟨⟩), ?_⟩
    rintro accepted before other after rfl all
    refine guarded (step :: before) other after rfl ?_
    intro s listed
    rcases mem_cons.mp listed with rfl | later
    · exact accepted
    · exact all s later
  rintro ⟨returns, guarded⟩ before other after shape all
  cases before with
  | nil =>
    cases shape
    exact returns
  | cons first before =>
    obtain ⟨rfl, rfl⟩ := List.cons.inj shape
    exact guarded (all step (by simp)) before other after rfl fun s listed => all s (mem_cons_of_mem _ listed)

theorem allAccepted_cons : AllAccepted (step :: rest) ↔ step.Accepted ∧ AllAccepted rest := forall_mem_cons

theorem guarded_append {first second : List Step} :
    Guarded (first ++ second) ↔ Guarded first ∧ (AllAccepted first → Guarded second) := by
  induction first with
  | nil =>
    have all : AllAccepted [] := by rintro _ ⟨⟩
    simp [guarded_nil, all]
  | cons step first ih =>
    rw [cons_append, guarded_cons, guarded_cons, ih, allAccepted_cons]
    tauto

theorem Step.run_eq (step : Step) :
    (¬step.Accepted ∧ step.run = .ok none) ∨ (step.Accepted ∧ (¬step.Returns ∨ ∃ cs, step.run = .ok (some cs) ∧
      step.expansion = some (.ok cs))) := by
  unfold Step.Accepted Step.Returns Step.run
  cases step.expansion with
  | none => exact .inl ⟨Bool.false_ne_true, rfl⟩
  | some expansion =>
    refine .inr ⟨rfl, ?_⟩
    cases expansion with
    | ok cs => exact .inr ⟨cs, rfl, rfl⟩
    | err message => exact .inl (by rintro ⟨_, ⟨⟩⟩)
    | panic message => exact .inl (by rintro ⟨_, ⟨⟩⟩)

theorem runSteps_some {steps : List Step} {cs : List VersionComparator} (run : runSteps steps = .ok (some cs)) :
    ∃ parts, List.Forall₂ (fun step part => step.expansion = some (.ok part)) steps parts ∧ cs = parts.flatten := by
  induction steps generalizing cs with
  | nil =>
    cases run
    exact ⟨[], .nil, rfl⟩
  | cons step rest ih =>
    rw [runSteps] at run
    rcases step.run_eq with ⟨-, rejected⟩ | ⟨-, fails | ⟨first, taken, expansion⟩⟩
    · rw [rejected] at run
      cases run
    · obtain ⟨result, found, -⟩ := bind_eq_ok run
      exact absurd ⟨result, found⟩ fails
    rw [taken] at run
    obtain ⟨later, found, shape⟩ := bind_eq_ok (x := runSteps rest) run
    cases later with
    | none => cases shape
    | some tail =>
      cases shape
      obtain ⟨parts, each, rfl⟩ := ih found
      exact ⟨first :: parts, .cons expansion each, rfl⟩

theorem runSteps_spec (steps : List Step) : (¬Guarded steps ∧ ¬∃ result, runSteps steps = .ok result) ∨ (Guarded steps ∧
      ((AllAccepted steps ∧ ∃ cs, runSteps steps = .ok (some cs)) ∨ (¬AllAccepted steps ∧ runSteps steps = .ok none))) := by
  induction steps with
  | nil => exact .inr ⟨guarded_nil, .inl ⟨by rintro _ ⟨⟩, [], rfl⟩⟩
  | cons step rest ih =>
    rw [guarded_cons, allAccepted_cons, runSteps]
    rcases step.run_eq with ⟨out, rejected⟩ | ⟨accepted, fails | ⟨first, taken, -⟩⟩
    · rw [rejected]
      exact .inr ⟨⟨⟨none, rejected⟩, fun accepted => absurd accepted out⟩, .inr ⟨fun both => out both.1, rfl⟩⟩
    · refine .inl ⟨fun both => fails both.1, ?_⟩
      rintro ⟨result, run⟩
      obtain ⟨found, returned, -⟩ := bind_eq_ok run
      exact fails ⟨found, returned⟩
    have returns : step.Returns := ⟨some first, taken⟩
    rw [taken]
    rcases ih with ⟨open_, fails⟩ | ⟨guarded, ⟨all, cs, run⟩ | ⟨some_, run⟩⟩
    · refine .inl ⟨fun both => open_ (both.2 accepted), ?_⟩
      rintro ⟨result, run⟩
      obtain ⟨found, returned, -⟩ := bind_eq_ok (x := runSteps rest) run
      exact fails ⟨found, returned⟩
    · refine .inr ⟨⟨returns, fun _ => guarded⟩, .inl ⟨⟨accepted, all⟩, first ++ cs, ?_⟩⟩
      simp [monad_bind, monad_pure, run]
    · refine .inr ⟨⟨returns, fun _ => guarded⟩, .inr ⟨fun both => some_ both.2, ?_⟩⟩
      simp [monad_bind, monad_pure, run]

/-- The steps of all ranges, in the order in which the parser takes them. -/
def allSteps (ranges : List (List Text)) : List Step := ranges.flatMap stepsOf

theorem runRanges_true {alternatives result : List (List VersionComparator)} {ranges : List (List Text)}
    (run : runRanges alternatives ranges = .ok (result, true)) :
    ∃ later, List.Forall₂ (fun words cs => runSteps (stepsOf words) = .ok (some cs)) ranges later ∧
      result = alternatives ++ later := by
  induction ranges generalizing alternatives with
  | nil =>
    cases run
    exact ⟨[], .nil, (append_nil _).symm⟩
  | cons words rest ih =>
    obtain ⟨found, returned, run⟩ := bind_eq_ok run
    cases found with
    | none => cases run
    | some cs =>
      obtain ⟨later, each, rfl⟩ := ih run
      exact ⟨cs :: later, .cons returned each, append_assoc ..⟩

theorem runRanges_spec (alternatives : List (List VersionComparator)) (ranges : List (List Text)) :
    (¬Guarded (allSteps ranges) ∧ ¬∃ result, runRanges alternatives ranges = .ok result) ∨
      (Guarded (allSteps ranges) ∧
        ((AllAccepted (allSteps ranges) ∧ ∃ result, runRanges alternatives ranges = .ok (result, true)) ∨
          (¬AllAccepted (allSteps ranges) ∧ runRanges alternatives ranges = .ok ([], false)))) := by
  induction ranges generalizing alternatives with
  | nil => exact .inr ⟨guarded_nil, .inl ⟨by rintro _ ⟨⟩, alternatives, rfl⟩⟩
  | cons words rest ih =>
    have all_append : AllAccepted (allSteps (words :: rest)) ↔ AllAccepted (stepsOf words) ∧ AllAccepted (allSteps rest) :=
      forall_mem_append
    have guarded : Guarded (allSteps (words :: rest)) ↔
        Guarded (stepsOf words) ∧ (AllAccepted (stepsOf words) → Guarded (allSteps rest)) := guarded_append
    rw [all_append, guarded, runRanges]
    rcases runSteps_spec (stepsOf words) with ⟨open_, fails⟩ | ⟨first, ⟨all, cs, run⟩ | ⟨some_, run⟩⟩
    · refine .inl ⟨fun both => open_ both.1, ?_⟩
      rintro ⟨result, run⟩
      obtain ⟨found, returned, -⟩ := bind_eq_ok run
      exact fails ⟨found, returned⟩
    · rw [run]
      rcases ih (alternatives ++ [cs]) with ⟨open_, fails⟩ | ⟨later, ⟨all', result⟩ | ⟨some_, result⟩⟩
      · exact .inl ⟨fun both => open_ (both.2 all), fails⟩
      · exact .inr ⟨⟨first, fun _ => later⟩, .inl ⟨⟨all, all'⟩, result⟩⟩
      · exact .inr ⟨⟨first, fun _ => later⟩, .inr ⟨fun both => some_ both.2, result⟩⟩
    · rw [run]
      exact .inr ⟨⟨first, fun all => absurd all some_⟩, .inr ⟨fun both => some_ both.1, rfl⟩⟩
end

variable {text : Text} {range : VersionRange} {ok : Bool}

def versionSteps (text : Text) : List Step := allSteps (rangesOf text)

theorem tryParseVersionRange_ok :
    tryParseVersionRange text = .ok (range, ok) ↔ runRanges [] (rangesOf text) = .ok (range.alternatives, ok) := by
  unfold tryParseVersionRange
  rw [parseAlternatives_eq]
  cases runRanges [] (rangesOf text) with
  | ok result =>
    obtain ⟨alternatives, parsed⟩ := result
    obtain ⟨alternatives'⟩ := range
    simp [monad_bind, monad_pure]
  | err message => exact iff_of_false (by rintro ⟨⟩) (by rintro ⟨⟩)
  | panic message => exact iff_of_false (by rintro ⟨⟩) (by rintro ⟨⟩)

theorem tryParseVersionRange_returns : (∃ result, tryParseVersionRange text = .ok result) ↔ Guarded (versionSteps text) := by
  constructor
  · rintro ⟨⟨range, ok⟩, returned⟩
    rcases runRanges_spec [] (rangesOf text) with ⟨-, fails⟩ | ⟨guarded, -⟩
    · exact absurd ⟨_, tryParseVersionRange_ok.mp returned⟩ fails
    · exact guarded
  intro guarded
  rcases runRanges_spec [] (rangesOf text) with ⟨open_, -⟩ | ⟨-, ⟨-, result, run⟩ | ⟨-, run⟩⟩
  · exact absurd guarded open_
  · exact ⟨(⟨result⟩, true), tryParseVersionRange_ok.mpr run⟩
  · exact ⟨(⟨[]⟩, false), tryParseVersionRange_ok.mpr run⟩

theorem ok_iff_allAccepted
    (returned : tryParseVersionRange text = .ok (range, ok)) : ok = true ↔ AllAccepted (versionSteps text) := by
  have run := tryParseVersionRange_ok.mp returned
  rcases runRanges_spec [] (rangesOf text) with ⟨-, fails⟩ | ⟨-, ⟨all, result, run'⟩ | ⟨some_, run'⟩⟩
  · exact absurd ⟨_, run⟩ fails
  · obtain ⟨-, rfl⟩ := Prod.mk.inj (Outcome.ok.inj (run.symm.trans run'))
    exact iff_of_true rfl all
  · obtain ⟨-, rfl⟩ := Prod.mk.inj (Outcome.ok.inj (run.symm.trans run'))
    exact iff_of_false Bool.false_ne_true some_

end TypeScriptRs.Semver
