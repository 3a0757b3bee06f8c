import TypeScriptRs.Globs.Matching

/-! The language of a glob, and where matching is exact. -/
namespace TypeScriptRs.Globs
open Utf8

/-- The documented syntax. A `**` at the end, also before a slash, stands for anything. -/
inductive InLanguage : Glob → Text → Prop
  | nil : InLanguage [] []
  | slash {rest : Glob} {input : Text} : InLanguage rest input → InLanguage (.slash :: rest) ('/' :: input)
  | slashes {rest : Glob} {input : Text} : InLanguage (.slash :: rest) input → InLanguage (.slash :: rest) ('/' :: input)
  | literal {rest : Glob} {text input : Text} : InLanguage rest input → InLanguage (.literal text :: rest) (text ++ input)
  | star {rest : Glob} {run input : Text} : '/' ∉ run → InLanguage rest input → InLanguage (.star :: rest) (run ++ input)
  | anyChar {rest : Glob} {c : Char} {input : Text} : c ≠ '/' → InLanguage rest input → InLanguage (.anyChar :: rest) (c :: input)
  | all {input : Text} : InLanguage [.starStar] input
  | allBelow {input : Text} : InLanguage [.starStar, .slash] input
  | noSegment {rest : Glob} {input : Text} : InLanguage rest input → InLanguage (.starStar :: .slash :: rest) input
  | segment {rest : Glob} {segment input : Text} : '/' ∉ segment → InLanguage (.slash :: .starStar :: .slash :: rest) input →
      InLanguage (.starStar :: .slash :: rest) (segment ++ input)
  | group {rest alternative : Glob} {alternatives : List Glob} {input : Text} : alternative ∈ alternatives →
      InLanguage (alternative ++ rest) input → InLanguage (.group alternatives :: rest) input
  | charRange {rest : Glob} {negate : Bool} {low high c : Char} {input : Text} : c ≠ '/' → ((low ≤ c ∧ c ≤ high) ↔ negate = false) →
      InLanguage rest input → InLanguage (.charRange negate low high :: rest) (c :: input)

theorem slash_all {rest : Glob} {input : Text} (below : InLanguage rest (input.dropWhile (· = '/'))) :
    InLanguage (.slash :: rest) ('/' :: input) := by
  induction input with
  | nil => exact .slash below
  | cons c input ih =>
    by_cases slash : c = '/'
    · subst slash
      exact .slashes (ih (by simpa using below))
    · exact .slash (by simpa [slash] using below)

theorem segment_split {rest : Glob} {input : Text} (some_ : (split input).2 ≠ [])
    (later : InLanguage (.starStar :: .slash :: rest) (split input).2) : InLanguage (.starStar :: .slash :: rest) input := by
  have whole := List.takeWhile_append_dropWhile (p := fun c => decide (c ≠ '/')) (l := input)
  have free : '/' ∉ input.takeWhile (· ≠ '/') := by
    intro member
    simpa using List.mem_takeWhile_imp member
  have stops := List.head?_dropWhile_not (fun c => decide (c ≠ '/')) input
  unfold split at some_ later
  cases after : input.dropWhile (· ≠ '/') with
  | nil =>
    rw [after] at some_
    exact absurd rfl some_
  | cons c back =>
    rw [after] at stops whole later
    have slash : c = '/' := by simpa using stops
    subst slash
    rw [← whole]
    exact .segment free (slash_all (by simpa using later))

theorem segmentStarts_sound {rest : Glob} {input later : Text} (start : later ∈ segmentStarts input) (below : InLanguage rest later) :
    InLanguage (.starStar :: .slash :: rest) input := by
  fun_induction segmentStarts input with
  | case1 => cases start
  | case2 c input ih =>
    rcases List.mem_cons.mp start with rfl | start
    · exact .noSegment below
    have some_ : (split (c :: input)).2 ≠ [] := by
      intro none_
      rw [none_, segmentStarts] at start
      cases start
    exact segment_split some_ (ih start)

/-- A question whose answer the answer to another is made of: what is left of the pattern, and of the input. -/
inductive Asks : Glob × Text → Glob × Text → Prop
  | slash {rest : Glob} {input : Text} : Asks (.slash :: rest, '/' :: input) (rest, input.dropWhile (· = '/'))
  | literal {rest : Glob} {text input : Text} : Asks (.literal text :: rest, text ++ input) (rest, input)
  | star {rest : Glob} {input later : Text} : rest ≠ [] → (∀ e ∈ rest, e.isSlash = false) → later ∈ charStarts (split input).1 →
      Asks (.star :: rest, input) (rest, later)
  | anyChar {rest : Glob} {c : Char} {input : Text} : c ≠ '/' → Asks (.anyChar :: rest, c :: input) (rest, input)
  | starStar {rest : Glob} {input later : Text} : rest ≠ [] → later ∈ segmentStarts input →
      Asks (.starStar :: .slash :: rest, input) (rest, later)
  | group {rest alternative : Glob} {alternatives : List Glob} {input : Text} : alternative ∈ alternatives →
      Asks (.group alternatives :: rest, input) (alternative ++ rest, input)
  | charRange {rest : Glob} {negate : Bool} {low high c : Char} {input : Text} : c ≠ '/' → low ≤ c → c ≤ high →
      Asks (.charRange negate low high :: rest, c :: input) (rest, input)

/-- What the answer to a question with a star is found from, where no slash follows the star. -/
def FoundInSegment (rest : Glob) (input : Text) : Prop :=
  (split input).2 = [] ∧ (rest = [] ∨ ∃ later ∈ charStarts (split input).1, InLanguage rest later)

/-- The questions that are answered wrongly although those they ask are answered rightly. -/
inductive Misjudged : Glob → Text → Prop
  /-- the rest matches, but a negated range is taken for a plain one -/
  | negated {rest : Glob} {low high c : Char} {input : Text} : c ≠ '/' → InLanguage rest input →
      Misjudged (.charRange true low high :: rest) (c :: input)
  /-- the rest matches only where it is left some of the slashes -/
  | slashes {rest : Glob} {input : Text} : InLanguage (.slash :: rest) input → ¬InLanguage rest (input.dropWhile (· = '/')) →
      Misjudged (.slash :: rest) input
  /-- the star takes the slash that a later element needs -/
  | slashAfterStar {rest : Glob} {input : Text} : (∃ e ∈ rest, e.isSlash = true) → InLanguage (.star :: rest) input →
      Misjudged (.star :: rest) input
  /-- the rest matches, but only at the end of the segment or through a slash in a group -/
  | segmentEnd {rest : Glob} {input : Text} : (∀ e ∈ rest, e.isSlash = false) → InLanguage (.star :: rest) input →
      ¬FoundInSegment rest input → Misjudged (.star :: rest) input
  /-- the input ends with slashes, which the star takes -/
  | lastSlashes {rest : Glob} {input : Text} : (∀ e ∈ rest, e.isSlash = false) → FoundInSegment rest input →
      ¬InLanguage (.star :: rest) input → Misjudged (.star :: rest) input
  /-- the rest matches, but only the end of the input or from within several slashes -/
  | starStar {rest : Glob} {input : Text} : rest ≠ [] → InLanguage (.starStar :: .slash :: rest) input →
      (∀ later ∈ segmentStarts input, ¬InLanguage rest later) → Misjudged (.starStar :: .slash :: rest) input

def Exact (elems : Glob) (input : Text) : Prop := matchElements elems input = true ↔ InLanguage elems input

section
variable {rest : Glob} {input : Text}

theorem exact_nil : Exact [] input := by
  unfold Exact
  rw [match_nil]
  constructor
  · rintro rfl
    exact .nil
  · rintro ⟨⟩
    rfl

theorem exact_slash (asked : ∀ later, Asks (.slash :: rest, input) (rest, later) → Exact rest later) :
    Exact (.slash :: rest) input ↔ ¬Misjudged (.slash :: rest) input := by
  have answer : matchElements (.slash :: rest) input = true ↔
      ∃ later, input = '/' :: later ∧ InLanguage rest (later.dropWhile (· = '/')) := by
    rw [match_slash]
    constructor
    · rintro ⟨later, rfl, found⟩
      exact ⟨later, rfl, (asked _ .slash).mp found⟩
    · rintro ⟨later, rfl, found⟩
      exact ⟨later, rfl, (asked _ .slash).mpr found⟩
  unfold Exact
  rw [answer]
  constructor
  · rintro agree (wrong | ⟨inside, missed⟩)
    obtain ⟨later, rfl, found⟩ := agree.mpr inside
    exact missed (by simpa using found)
  intro right
  constructor
  · rintro ⟨later, rfl, found⟩
    exact slash_all found
  intro inside
  obtain ⟨later, rfl⟩ : ∃ later, input = '/' :: later := by
    cases inside <;> exact ⟨_, rfl⟩
  by_contra missed
  exact right (.slashes inside (by simpa using missed))

theorem exact_literal {text : Text} (asked : ∀ later, Asks (.literal text :: rest, input) (rest, later) → Exact rest later) :
    Exact (.literal text :: rest) input := by
  unfold Exact
  rw [match_literal]
  constructor
  · rintro ⟨later, rfl, found⟩
    exact .literal ((asked later .literal).mp found)
  · rintro ⟨⟩
    exact ⟨_, rfl, (asked _ .literal).mpr ‹_›⟩

theorem exact_anyChar (asked : ∀ later, Asks (.anyChar :: rest, input) (rest, later) → Exact rest later) :
    Exact (.anyChar :: rest) input := by
  unfold Exact
  rw [match_anyChar]
  constructor
  · rintro ⟨c, later, rfl, other, found⟩
    exact .anyChar other ((asked later (.anyChar other)).mp found)
  · intro inside
    cases inside with
    | anyChar other below => exact ⟨_, _, rfl, other, (asked _ (.anyChar other)).mpr below⟩

theorem exact_group {alternatives : List Glob}
    (asked : ∀ elems later, Asks (.group alternatives :: rest, input) (elems, later) → Exact elems later) :
    Exact (.group alternatives :: rest) input := by
  unfold Exact
  rw [match_group]
  constructor
  · rintro ⟨alternative, member, found⟩
    exact .group member ((asked _ _ (.group member)).mp found)
  · intro inside
    cases inside with
    | group member below => exact ⟨_, member, (asked _ _ (.group member)).mpr below⟩

theorem exact_charRange {negate : Bool} {low high : Char}
    (asked : ∀ later, Asks (.charRange negate low high :: rest, input) (rest, later) → Exact rest later) :
    Exact (.charRange negate low high :: rest) input ↔ ¬Misjudged (.charRange negate low high :: rest) input := by
  have answer : matchElements (.charRange negate low high :: rest) input = true ↔
      ∃ c later, input = c :: later ∧ c ≠ '/' ∧ (low ≤ c ∧ c ≤ high) ∧ InLanguage rest later := by
    rw [match_charRange]
    constructor
    · rintro ⟨c, later, rfl, other, within, found⟩
      exact ⟨c, later, rfl, other, within, (asked later (.charRange other within.1 within.2)).mp found⟩
    · rintro ⟨c, later, rfl, other, within, found⟩
      exact ⟨c, later, rfl, other, within, (asked later (.charRange other within.1 within.2)).mpr found⟩
  unfold Exact
  rw [answer]
  constructor
  · intro agree wrong
    cases wrong with
    | @negated _ _ _ c later other below =>
      by_cases within : low ≤ c ∧ c ≤ high
      · have inside := agree.mp ⟨c, later, rfl, other, within, below⟩
        cases inside with
        | charRange _ plain => cases plain.mp within
      · obtain ⟨c', later', same, _, within', _⟩ := agree.mpr (.charRange other (by simp [within]) below)
        cases same
        exact within within'
  intro right
  constructor
  · rintro ⟨c, later, rfl, other, within, below⟩
    have plain : negate = false := by
      by_contra negated
      rw [Bool.not_eq_false] at negated
      subst negated
      exact right (.negated other below)
    exact .charRange other (by simp [within, plain]) below
  intro inside
  cases inside with
  | @charRange _ _ _ _ c later other within below =>
    have plain : negate = false := by
      by_contra negated
      rw [Bool.not_eq_false] at negated
      subst negated
      exact right (.negated other below)
    exact ⟨c, later, rfl, other, within.mpr plain, below⟩

theorem exact_starStar (some_ : rest ≠ []) (asked : ∀ later, Asks (.starStar :: .slash :: rest, input) (rest, later) → Exact rest later) :
    Exact (.starStar :: .slash :: rest) input ↔ ¬Misjudged (.starStar :: .slash :: rest) input := by
  have answer : matchElements (.starStar :: .slash :: rest) input = true ↔ ∃ later ∈ segmentStarts input, InLanguage rest later := by
    rw [match_starStar some_]
    constructor
    · rintro ⟨later, start, found⟩
      exact ⟨later, start, (asked later (.starStar some_ start)).mp found⟩
    · rintro ⟨later, start, found⟩
      exact ⟨later, start, (asked later (.starStar some_ start)).mpr found⟩
  unfold Exact
  rw [answer]
  constructor
  · intro agree wrong
    cases wrong with
    | starStar _ inside missed =>
      obtain ⟨later, start, below⟩ := agree.mpr inside
      exact missed later start below
  intro right
  constructor
  · rintro ⟨later, start, below⟩
    exact segmentStarts_sound start below
  · intro inside
    by_contra missed
    exact right (.starStar some_ inside fun later start below => missed ⟨later, start, below⟩)

theorem exact_star (asked : ∀ later, Asks (.star :: rest, input) (rest, later) → Exact rest later) :
    Exact (.star :: rest) input ↔ ¬Misjudged (.star :: rest) input := by
  unfold Exact
  by_cases slashed : ∃ e ∈ rest, e.isSlash = true
  · obtain ⟨e, member, isSlash⟩ := slashed
    rw [match_star_slash member isSlash]
    constructor
    · intro agree wrong
      cases wrong with
      | slashAfterStar _ inside => cases agree.mpr inside
      | segmentEnd flat => simp [flat e member] at isSlash
      | lastSlashes flat => simp [flat e member] at isSlash
    intro right
    constructor
    · rintro ⟨⟩
    · intro inside
      exact absurd (.slashAfterStar ⟨e, member, isSlash⟩ inside) right
  have flat : ∀ e ∈ rest, e.isSlash = false := by
    intro e member
    by_contra isSlash
    exact slashed ⟨e, member, by simpa using isSlash⟩
  have answer : matchElements (.star :: rest) input = true ↔ FoundInSegment rest input := by
    rw [match_star flat]
    unfold FoundInSegment
    by_cases none_ : rest = []
    · simp [none_]
    have each : ∀ later ∈ charStarts (split input).1, (matchElements rest later = true ↔ InLanguage rest later) := by
      intro later start
      exact asked later (.star none_ flat start)
    constructor
    · rintro ⟨ends, empty | ⟨later, start, found⟩⟩
      · exact absurd empty none_
      · exact ⟨ends, .inr ⟨later, start, (each later start).mp found⟩⟩
    · rintro ⟨ends, empty | ⟨later, start, found⟩⟩
      · exact absurd empty none_
      · exact ⟨ends, .inr ⟨later, start, (each later start).mpr found⟩⟩
  rw [answer]
  constructor
  · intro agree wrong
    cases wrong with
    | slashAfterStar slashed' => exact slashed slashed'
    | segmentEnd _ inside missed => exact missed (agree.mpr inside)
    | lastSlashes _ found outside => exact outside (agree.mp found)
  intro right
  constructor
  · intro found
    by_contra outside
    exact right (.lastSlashes flat found outside)
  · intro inside
    by_contra missed
    exact right (.segmentEnd flat inside missed)
end

theorem Placed.append {last : Prop} {front rest : Glob} (placed : Placed False front) (restPlaced : Placed last rest) :
    Placed last (front ++ rest) := by
  generalize never : False = inner at placed
  induction placed with
  | nil => exact restPlaced
  | starStar ends =>
    subst never
    exact ends.elim
  | starStarSlash _ ih => exact .starStarSlash (ih never)
  | group alternatives _ _ ih => exact .group alternatives (ih never)
  | slash _ ih => exact .slash (ih never)
  | literal _ ih => exact .literal (ih never)
  | star _ ih => exact .star (ih never)
  | anyChar _ ih => exact .anyChar (ih never)
  | charRange _ ih => exact .charRange (ih never)

theorem Placed.tail {last : Prop} {element : Element} {rest : Glob} (placed : Placed last (element :: rest)) : Placed last rest := by
  cases placed with
  | starStar => exact .nil
  | starStarSlash below => exact below
  | group _ below => exact below
  | slash below => exact below
  | literal below => exact below
  | star below => exact below
  | anyChar below => exact below
  | charRange below => exact below

theorem Asks.placed {elems rest : Glob} {input later : Text} (asks : Asks (elems, input) (rest, later)) (placed : Placed True elems) :
    Placed True rest := by
  cases asks with
  | group member =>
    cases placed with
    | group alternatives below => exact (alternatives _ member).append below
  | starStar => exact placed.tail.tail
  | slash => exact placed.tail
  | literal => exact placed.tail
  | star => exact placed.tail
  | anyChar => exact placed.tail
  | charRange => exact placed.tail

theorem Asks.smaller {elems rest : Glob} {input later : Text} (asks : Asks (elems, input) (rest, later)) : sizeOf rest < sizeOf elems := by
  cases asks with
  | @group rest alternative alternatives _ member =>
    have inner := List.sizeOf_lt_of_mem member
    have outer := sizeOf_append alternative rest
    simp
    omega
  | starStar =>
    simp
    omega
  | slash => simp
  | literal => simp
  | star => simp
  | anyChar => simp
  | charRange => simp

/-- An answer is right exactly if the question is none of the misjudged ones, provided that those it asks are answered rightly. -/
theorem exact_iff {elems : Glob} {input : Text} (placed : Placed True elems)
    (asked : ∀ rest later, Asks (elems, input) (rest, later) → Exact rest later) : Exact elems input ↔ ¬Misjudged elems input := by
  cases placed with
  | nil => exact iff_of_true exact_nil (by rintro ⟨⟩)
  | starStar => exact iff_of_true (iff_of_true match_starStar_last.1 .all) (by rintro ⟨⟩)
  | @starStarSlash _ rest =>
    cases rest with
    | nil =>
      refine iff_of_true (iff_of_true match_starStar_last.2 .allBelow) ?_
      intro wrong
      cases wrong with
      | starStar some_ => exact some_ rfl
    | cons => exact exact_starStar (List.cons_ne_nil _ _) (asked _)
  | group => exact iff_of_true (exact_group asked) (by rintro ⟨⟩)
  | slash => exact exact_slash (asked _)
  | literal => exact iff_of_true (exact_literal (asked _)) (by rintro ⟨⟩)
  | star => exact exact_star (asked _)
  | anyChar => exact iff_of_true (exact_anyChar (asked _)) (by rintro ⟨⟩)
  | charRange => exact exact_charRange (asked _)

/-- Matching is exact all through the search if no question of the search is misjudged, by induction on the patterns asked about. -/
theorem exact_of_search {elems : Glob} {input : Text} (placed : Placed True elems)
    (right : ∀ rest later, Relation.ReflTransGen Asks (elems, input) (rest, later) → ¬Misjudged rest later) : Exact elems input := by
  apply (exact_iff placed _).mpr (right elems input .refl)
  intro rest later asks
  have smaller := asks.smaller
  exact exact_of_search (asks.placed placed) fun rest' later' reached => right rest' later' (.head asks reached)
termination_by sizeOf elems

theorem reached_placed {question reached : Glob × Text} (reaches : Relation.ReflTransGen Asks question reached)
    (placed : Placed True question.1) : Placed True reached.1 := by
  induction reaches with
  | refl => exact placed
  | tail _ asks ih => exact Asks.placed asks ih

variable {pattern : Text} {glob : Glob}

def digit : Glob := [.charRange false '0' '9']

theorem parse_digit : parse "[0-9]".toList = .ok digit := by
  with_unfolding_all rfl

end TypeScriptRs.Globs
