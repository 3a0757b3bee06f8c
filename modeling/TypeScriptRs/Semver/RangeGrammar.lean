import TypeScriptRs.Semver.Grammar
import TypeScriptRs.Semver.Operators

/-! The grammar of ranges as the source's comments give it, against what the parser accepts. -/
namespace TypeScriptRs.Semver
open Machine List

section
def IsXr (part : Text) : Prop := part = ['x'] ∨ part = ['X'] ∨ part = ['*'] ∨ IsNumber part

def Identifiers (parts : List Text) : Prop := ∀ part ∈ parts, IsIdentifier part

/-- A partial version, with what is taken for the identifiers after a sign. -/
structure Pieces.IsPartial (identifiers : List Text → Prop) (p : Pieces) : Prop where
  some_ : p.core ≠ []
  few : p.core.length ≤ 3
  whole : p.core.length < 3 → p.prerelease = [] ∧ p.build = []
  core : ∀ part ∈ p.core, IsXr part
  prerelease : identifiers p.prerelease
  build : identifiers p.build

def PartialText (identifiers : List Text → Prop) (text : Text) : Prop :=
  ∃ p : Pieces, p.IsPartial identifiers ∧ p.text = text

/-- A partial version whose numbers before the first wildcard fit in 32 bits. -/
def FittingText (identifiers : List Text → Prop) (text : Text) : Prop :=
  ∃ p : Pieces, p.IsPartial identifiers ∧ p.Fits ∧ p.text = text

inductive Simple (P : Text → Prop) : Text → Prop
  | plain {text : Text} : P text → Simple P text
  | operator (operator : ComparatorOperator) {text : Text} : P text → Simple P (operator.asStr ++ text)

/-- The words of a range: two partial versions around a hyphen, or any number of simple ones. -/
inductive RangeWords (P : Text → Prop) : List Text → Prop
  | hyphen {left right : Text} : P left → P right → RangeWords P [left, ['-'], right]
  | simples {words : List Text} : (∀ word ∈ words, Simple P word) → RangeWords P words

/-- Ranges with bars between them, and spaces around the bars. -/
inductive RangeSet (R : Text → Prop) : Text → Prop
  | range {text : Text} : R text → RangeSet R text
  | or {text gap gap' rest : Text} : R text → (∀ c ∈ gap, c = ' ') → (∀ c ∈ gap', c = ' ') → RangeSet R rest →
      RangeSet R (text ++ gap ++ ['|', '|'] ++ gap' ++ rest)

/-- The documented grammar: one space between the words of a range. -/
def Documented (P : Text → Prop) : Text → Prop :=
  RangeSet fun text => ∃ words, RangeWords P words ∧ text = [' '].intercalate words

/-- The same with any blanks between the words of a range, and around them. -/
def Spread (P : Text → Prop) (text : Text) : Prop :=
  ∃ pieces : List Text, pieces ≠ [] ∧ text = ['|', '|'].intercalate pieces ∧
    ∀ piece ∈ pieces, ∃ words, RangeWords P words ∧ Words.Spaced isWhitespace words piece

variable {P Q : Text → Prop}

theorem Simple.mono (weaker : ∀ text, P text → Q text) {text : Text} (simple : Simple P text) : Simple Q text := by
  cases simple with
  | plain inner => exact .plain (weaker _ inner)
  | operator operator inner => exact .operator operator (weaker _ inner)

theorem RangeWords.mono (weaker : ∀ text, P text → Q text) {words : List Text} (range : RangeWords P words) :
    RangeWords Q words := by
  cases range with
  | hyphen left right => exact .hyphen (weaker _ left) (weaker _ right)
  | simples each => exact .simples fun word listed => (each word listed).mono weaker
end

section
variable {p : Pieces} {text : Text}

theorem isXr_iff_IsXr {part : Text} : isXr part = true ↔ IsXr part := by
  rw [isXr_iff, isWildcard_iff, isNumericIdentifier_eq_true]
  unfold IsXr
  tauto

theorem isPartial_iff_shaped : p.IsPartial Qualifier ↔ p.Shaped := by
  constructor
  · rintro ⟨some_, few, whole, core, prerelease, build⟩
    exact ⟨some_, few, whole, fun part listed => isXr_iff_IsXr.mpr (core part listed), prerelease, build⟩
  · rintro ⟨some_, few, whole, core, prerelease, build⟩
    exact ⟨some_, few, whole, fun part listed => isXr_iff_IsXr.mp (core part listed), prerelease, build⟩

theorem Identifiers.qualifier {parts : List Text} (identifiers : Identifiers parts) : Qualifier parts := by
  refine ⟨?_, fun part listed => (identifiers part listed).2⟩
  rintro rfl
  exact (identifiers [] (by simp)).1 rfl

theorem Pieces.IsPartial.mono (documented : p.IsPartial Identifiers) : p.IsPartial Qualifier :=
  ⟨documented.some_, documented.few, documented.whole, documented.core, documented.prerelease.qualifier,
    documented.build.qualifier⟩

theorem fittingText_iff : FittingText Qualifier text ↔ (readPartial text).isSome = true := by
  rw [readPartial_isSome]
  exact exists_congr fun p => and_congr_left' isPartial_iff_shaped

theorem FittingText.mono (documented : FittingText Identifiers text) : FittingText Qualifier text := by
  obtain ⟨p, shape, fits, same⟩ := documented
  exact ⟨p, shape.mono, fits, same⟩

theorem isRangeAtom_of_fittingText (fitting : FittingText Qualifier text) : isRangeAtom text = true := by
  obtain ⟨result, read⟩ := Option.isSome_iff_exists.mp (fittingText_iff.mp fitting)
  exact isRangeAtom_of_readPartial read
end

theorem stripOperator_atom {text : Text} (atom : isRangeAtom text = true) : stripOperator text = (none, text) := by
  obtain ⟨some_, all⟩ := isRangeAtom_iff.mp atom
  obtain ⟨c, rest, rfl⟩ := exists_cons_of_ne_nil some_
  have other : ∀ d, isAtomChar d = false → c ≠ d := by
    rintro d out rfl
    cases (all c (by simp)).symm.trans out
  have lt := other '<' (by decide)
  have gt := other '>' (by decide)
  have eq := other '=' (by decide)
  have tilde := other '~' (by decide)
  have caret := other '^' (by decide)
  unfold stripOperator
  split
  · rename_i shape
    exact absurd (List.cons.inj shape).1 lt
  · rename_i shape
    exact absurd (List.cons.inj shape).1 gt
  · rename_i shape
    exact absurd (List.cons.inj shape).1 lt
  · rename_i shape
    exact absurd (List.cons.inj shape).1 gt
  · rename_i shape
    exact absurd (List.cons.inj shape).1 eq
  · rename_i shape
    exact absurd (List.cons.inj shape).1 tilde
  · rename_i shape
    exact absurd (List.cons.inj shape).1 caret
  · rfl

theorem parseRange_atom {text : Text} (atom : isRangeAtom text = true) : parseRange text = some (none, text) := by
  unfold parseRange
  rw [stripOperator_atom atom]
  simp [dropWhile_atom atom, (isRangeAtom_iff.mp atom).1, atom]

theorem stripOperator_eq (text : Text) :
    stripOperator text = (none, text) ∨ ∃ operator rest, stripOperator text = (some operator, rest) ∧
      text = operator.asStr ++ rest := by
  unfold stripOperator
  split
  · exact .inr ⟨.lessThanEqual, _, rfl, rfl⟩
  · exact .inr ⟨.greaterThanEqual, _, rfl, rfl⟩
  · exact .inr ⟨.lessThan, _, rfl, rfl⟩
  · exact .inr ⟨.greaterThan, _, rfl, rfl⟩
  · exact .inr ⟨.equal, _, rfl, rfl⟩
  · exact .inr ⟨.tilde, _, rfl, rfl⟩
  · exact .inr ⟨.caret, _, rfl, rfl⟩
  · exact .inl rfl

theorem dropWhile_word_tail {front rest : Text} (whole : Words.IsWord isWhitespace (front ++ rest)) :
    rest.dropWhile isWhitespace = rest := by
  rw [dropWhile_eq_self_iff]
  intro filled
  exact Bool.eq_false_iff.mp (whole.2 _ (mem_append_right _ (getElem_mem filled)))

theorem accepted_simple {word : Text} (whole : Words.IsWord isWhitespace word) :
    (Step.simple word).Accepted ↔ Simple (FittingText Qualifier) word := by
  unfold Step.Accepted
  constructor
  · intro accepted
    obtain ⟨outcome, found⟩ := Option.isSome_iff_exists.mp accepted
    obtain ⟨split, parsed, found⟩ := Option.bind_eq_some_iff.mp found
    obtain ⟨result, read, -⟩ := Option.map_eq_some_iff.mp found
    have inner : FittingText Qualifier split.2 := fittingText_iff.mpr (by rw [read]; rfl)
    unfold parseRange at parsed
    rcases stripOperator_eq word with none | ⟨operator, rest, some_, shape⟩
    · have kept := dropWhile_word_tail (nil_append word ▸ whole)
      rw [none, kept] at parsed
      dsimp only at parsed
      split at parsed
      · cases parsed
      · cases parsed
        exact .plain inner
    have kept := dropWhile_word_tail (shape ▸ whole)
    rw [some_, kept] at parsed
    dsimp only at parsed
    split at parsed
    · cases parsed
    · cases parsed
      rw [shape]
      exact .operator operator inner
  · intro simple
    cases simple with
    | plain fitting =>
      obtain ⟨result, read⟩ := Option.isSome_iff_exists.mp (fittingText_iff.mp fitting)
      rw [Step.expansion, parseRange_atom (isRangeAtom_of_readPartial read)]
      simp [read]
    | operator operator fitting =>
      obtain ⟨result, read⟩ := Option.isSome_iff_exists.mp (fittingText_iff.mp fitting)
      rw [expansion_operator operator read]
      rfl

theorem accepted_hyphen {left right : Text} : (Step.hyphen left right).Accepted ↔
    FittingText Qualifier left ∧ FittingText Qualifier right := by
  rw [fittingText_iff, fittingText_iff, Step.Accepted, Step.expansion]
  cases readPartial left with
  | none => simp
  | some result => simp

theorem not_simple_hyphen : ¬Simple (FittingText Qualifier) ['-'] := by
  intro simple
  have accepted := (accepted_simple isWord_hyphen).mpr simple
  exact absurd accepted (by unfold Step.Accepted; decide)

theorem allAccepted_stepsOf {words : List Text} (each : ∀ word ∈ words, Words.IsWord isWhitespace word) :
    AllAccepted (stepsOf words) ↔ RangeWords (FittingText Qualifier) words := by
  by_cases hyphen : ∃ left right, words = [left, ['-'], right] ∧ isRangeAtom left = true ∧ isRangeAtom right = true
  · obtain ⟨left, right, rfl, leftAtom, rightAtom⟩ := hyphen
    have single : AllAccepted [.hyphen left right] ↔ (Step.hyphen left right).Accepted := forall_mem_singleton
    rw [stepsOf_hyphen leftAtom rightAtom, single, accepted_hyphen]
    constructor
    · exact fun both => .hyphen both.1 both.2
    · intro range
      cases range with
      | hyphen left right => exact ⟨left, right⟩
      | simples all => exact absurd (all ['-'] (by simp)) not_simple_hyphen
  rw [stepsOf_simple hyphen]
  constructor
  · intro all
    refine .simples fun word listed => (accepted_simple (each word listed)).mp ?_
    exact all (.simple word) (mem_map_of_mem listed)
  intro range
  cases range with
  | @hyphen left right fitting fitting' =>
    exact absurd ⟨left, right, rfl, isRangeAtom_of_fittingText fitting, isRangeAtom_of_fittingText fitting'⟩ hyphen
  | simples all =>
    intro step listed
    obtain ⟨word, member, rfl⟩ := mem_map.mp listed
    exact (accepted_simple (each word member)).mpr (all word member)

section
variable {word text : Text}

theorem bar_not_blank : isWhitespace '|' = false := by decide

theorem bar_not_mem_simple (simple : Simple (FittingText Qualifier) word) : '|' ∉ word := by
  cases simple with
  | plain fitting =>
    intro listed
    exact absurd ((isRangeAtom_iff.mp (isRangeAtom_of_fittingText fitting)).2 '|' listed) (by decide)
  | operator operator fitting => exact bar_not_mem operator (isRangeAtom_of_fittingText fitting)

theorem isWord_of_simple (simple : Simple (FittingText Qualifier) word) : Words.IsWord isWhitespace word := by
  cases simple with
  | plain fitting => exact isWord_of_isRangeAtom (isRangeAtom_of_fittingText fitting)
  | operator operator fitting => exact isWord_operator operator (isRangeAtom_of_fittingText fitting)

theorem RangeWords.plain {words : List Text} (range : RangeWords (FittingText Qualifier) words) :
    ∀ word ∈ words, Words.IsWord isWhitespace word ∧ '|' ∉ word := by
  intro word listed
  cases range with
  | hyphen left right =>
    have each : ∀ {text : Text}, FittingText Qualifier text → Words.IsWord isWhitespace text ∧ '|' ∉ text :=
      fun fitting => ⟨isWord_of_simple (.plain fitting), bar_not_mem_simple (.plain fitting)⟩
    simp only [mem_cons, not_mem_nil, or_false] at listed
    rcases listed with rfl | rfl | rfl
    · exact each left
    · exact ⟨isWord_hyphen, by decide⟩
    · exact each right
  | simples all => exact ⟨isWord_of_simple (all word listed), bar_not_mem_simple (all word listed)⟩

theorem allAccepted_versionSteps : AllAccepted (versionSteps text) ↔
    ∀ piece ∈ Words.splitPair '|' text, RangeWords (FittingText Qualifier) (splitWhitespace piece) := by
  have steps : ∀ piece, AllAccepted (stepsOf (splitWhitespace piece)) ↔
      RangeWords (FittingText Qualifier) (splitWhitespace piece) := fun piece =>
    allAccepted_stepsOf fun word listed => Words.isWord_of_mem listed
  constructor
  · intro all piece listed
    rw [← steps]
    intro step member
    refine all step (mem_flatMap.mpr ⟨splitWhitespace piece, ?_, member⟩)
    refine mem_filter.mpr ⟨mem_map_of_mem listed, ?_⟩
    cases words : splitWhitespace piece with
    | nil =>
      rw [words] at member
      cases member
    | cons => rfl
  · intro all step listed
    obtain ⟨words, member, inside⟩ := mem_flatMap.mp listed
    obtain ⟨piece, cut, rfl⟩ := mem_map.mp (mem_filter.mp member).1
    exact (steps piece).mpr (all piece cut) step inside

theorem spread_iff : Spread (FittingText Qualifier) text ↔ AllAccepted (versionSteps text) := by
  rw [allAccepted_versionSteps]
  constructor
  · rintro ⟨pieces, some_, rfl, each⟩
    have free : ∀ piece ∈ pieces, '|' ∉ piece := by
      intro piece listed bar
      obtain ⟨words, range, spaced⟩ := each piece listed
      rcases spaced.mem bar with blank | ⟨word, member, inside⟩
      · cases bar_not_blank.symm.trans blank
      · exact (range.plain word member).2 inside
    rw [Words.splitPair_intercalate some_ free]
    intro piece listed
    obtain ⟨words, range, spaced⟩ := each piece listed
    have found : splitWhitespace piece = words := spaced.words_eq
    rw [found]
    exact range
  · intro all
    exact ⟨Words.splitPair '|' text, Words.splitPair_ne_nil '|' text, (Words.intercalate_splitPair text).symm,
      fun piece listed => ⟨splitWhitespace piece, all piece listed, Words.spaced_words piece⟩⟩

theorem Spread.mono {P Q : Text → Prop} (weaker : ∀ text, P text → Q text) (spread : Spread P text) : Spread Q text := by
  obtain ⟨pieces, some_, same, each⟩ := spread
  refine ⟨pieces, some_, same, ?_⟩
  intro piece listed
  obtain ⟨words, range, spaced⟩ := each piece listed
  exact ⟨words, range.mono weaker, spaced⟩

theorem Documented.spread (documented : Documented (FittingText Identifiers) text) : Spread (FittingText Identifiers) text := by
  have spaces : ∀ {gap : Text}, (∀ c ∈ gap, c = ' ') → Words.AllBlank isWhitespace gap := by
    intro gap all c listed
    rw [all c listed]
    decide
  -- The blanks after a bar belong to the range that follows it.
  have gapped : ∀ gap, Words.AllBlank isWhitespace gap → Spread (FittingText Identifiers) (gap ++ text) := by
    have range : ∀ {text : Text}, (∃ words, RangeWords (FittingText Identifiers) words ∧
        text = [' '].intercalate words) → ∃ words, RangeWords (FittingText Identifiers) words ∧
          Words.Spaced isWhitespace words text := by
      rintro _ ⟨words, range, rfl⟩
      have plain := (range.mono fun _ => FittingText.mono).plain
      exact ⟨words, range, Words.spaced_intercalate (by decide) fun word listed => (plain word listed).1⟩
    induction documented with
    | range inner =>
      intro gap blanks
      obtain ⟨words, inside, spaced⟩ := range inner
      refine ⟨[gap ++ _], cons_ne_nil _ _, (intercalate_singleton ..).symm, ?_⟩
      intro piece listed
      rw [mem_singleton.mp listed]
      exact ⟨words, inside, spaced.gap_append blanks⟩
    | @or text front back rest inner before behind _ ih =>
      intro gap blanks
      obtain ⟨words, inside, spaced⟩ := range inner
      obtain ⟨pieces, some_, same, each⟩ := ih back (spaces behind)
      refine ⟨(gap ++ text ++ front) :: pieces, cons_ne_nil _ _, ?_, ?_⟩
      · rw [intercalate_cons_of_ne_nil some_, ← same]
        simp only [append_assoc]
      · intro piece listed
        rcases mem_cons.mp listed with rfl | later
        · exact ⟨words, inside, (spaced.gap_append blanks).append_gap (spaces before)⟩
        · exact each piece later
  exact gapped [] (by rintro _ ⟨⟩)
end

/-- The parser accepts the documented grammar, with any blanks around its words, when the
numbers before the first wildcard fit in 32 bits; and nothing but this grammar, as far as no
identifier is empty. -/
theorem tryParseVersionRange_grammar {text : Text} {range : VersionRange} {ok : Bool}
    (returned : tryParseVersionRange text = .ok (range, ok)) :
    (Documented (FittingText Identifiers) text → Spread (FittingText Identifiers) text) ∧
      (Spread (FittingText Identifiers) text → ok = true) ∧
      (ok = true → Spread (FittingText Qualifier) text) := by
  have parsed := (ok_iff_allAccepted returned).trans spread_iff.symm
  exact ⟨Documented.spread, fun spread => parsed.mpr (spread.mono fun _ => FittingText.mono), parsed.mp⟩

theorem tryParseVersionRange_grammar_bars : Spread (FittingText Qualifier) "1 - 2.x|| ^3".toList := by
  have returned : tryParseVersionRange "1 - 2.x|| ^3".toList =
      .ok (⟨[[⟨.greaterThanEqual, ⟨1, 0, 0, [], []⟩⟩, ⟨.lessThan, ⟨3, 0, 0, [], []⟩⟩],
        [⟨.greaterThanEqual, ⟨3, 0, 0, [], []⟩⟩, ⟨.lessThan, ⟨4, 0, 0, [], []⟩⟩]]⟩, true) := by decide
  exact (tryParseVersionRange_grammar returned).2.2 rfl

/-- A documented range whose number needs more than 32 bits. -/
theorem wideRange_rejected : Documented (PartialText Identifiers) "4294967296".toList ∧
    ¬∃ range, tryParseVersionRange "4294967296".toList = .ok (range, true) := by
  have number : IsXr "4294967296".toList := isXr_iff_IsXr.mp (by decide)
  have shape : (⟨["4294967296".toList], [], []⟩ : Pieces).IsPartial Identifiers :=
    ⟨by simp, by simp, by simp, by simpa using number, by rintro _ ⟨⟩, by rintro _ ⟨⟩⟩
  constructor
  · refine .range ⟨["4294967296".toList], .simples ?_, by simp⟩
    intro word listed
    rw [mem_singleton.mp listed]
    exact .plain ⟨_, shape, by decide⟩
  · rintro ⟨range, accepted⟩
    have rejected : tryParseVersionRange "4294967296".toList = .ok (⟨[]⟩, false) := by decide
    cases rejected.symm.trans accepted

end TypeScriptRs.Semver
