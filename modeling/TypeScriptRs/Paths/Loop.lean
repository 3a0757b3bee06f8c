import TypeScriptRs.Paths.SinglePass

/-! The single pass drops the same components, unless it cuts a character. -/
namespace TypeScriptRs.Paths
open Machine Utf8 List

def isWide (c : Char) : Bool := c.utf8Size ≠ 1

def startsWide (segment : Text) : Bool := segment.head?.any isWide

def endsWide (segment : Text) : Bool := segment.getLast?.any isWide

theorem dropBytes_one (front : Text) (c : Char) (rest : Text) :
    dropBytes (front ++ c :: rest) (bytes front + 1) = if isWide c then none else some rest := by
  have size := c.utf8Size_pos
  rw [dropBytes_add, dropBytes]
  by_cases wide : c.utf8Size = 1
  · rw [if_pos (by omega), wide, isWide, wide]
    cases rest <;> rfl
  · rw [if_neg (by omega), isWide, if_pos (by simpa using wide)]

theorem takeBytes_beforeLast (front : Text) (c : Char) (more : Text) :
    takeBytes (front ++ [c] ++ more) (bytes (front ++ [c]) - 1) = if isWide c then none else some front := by
  have size := c.utf8Size_pos
  obtain ⟨k, whole⟩ : ∃ k, c.utf8Size = k + 1 := ⟨c.utf8Size - 1, by omega⟩
  have cut : bytes (front ++ [c]) - 1 = bytes front + k := by
    rw [bytes_append, bytes_cons, bytes_nil]
    omega
  rw [cut, append_assoc, takeBytes_add]
  cases k with
  | zero =>
    rw [isWide, whole]
    simp [takeBytes]
  | succ k =>
    rw [isWide, whole]
    simp [takeBytes, whole]

theorem rfind_append (front : Text) {back : Text} (free : '/' ∉ back) : rfind (front ++ '/' :: back) = some (bytes front) := by
  have reversed : (front ++ '/' :: back).reverse = back.reverse ++ '/' :: front.reverse := by simp
  unfold rfind
  rw [if_pos (by simp), reversed, Split.dropWhile_append_cons (by simpa using free), tail_cons]
  simp [bytes]

theorem rfind_free {text : Text} (free : '/' ∉ text) : rfind text = none := if_neg free

section
def lead (components : List Text) : Text := if components = [] then [] else join components ++ ['/']

variable {root : Text} {components : List Text}

theorem join_concat (components : List Text) (component : Text) :
    join (components ++ [component]) = lead components ++ component := by
  unfold lead
  by_cases none : components = []
  · rw [if_pos none, none]
    exact intercalate_singleton
  rw [if_neg none]
  have cut : join (components ++ [component]) = join components ++ '/' :: component :=
    Split.intercalate_concat none component
  rw [cut]
  simp

theorem lead_concat (components : List Text) (component : Text) :
    lead (components ++ [component]) = lead components ++ component ++ ['/'] := by
  have some_ : components ++ [component] ≠ [] := by simp
  rw [lead, if_neg some_, join_concat]

def Open (root : Text) : Prop := root = [] ∨ ∃ front, root = front ++ ['/']

theorem rfind_lead (open_ : Open root) (components : List Text) {part : Text} (free : '/' ∉ part) :
    ((rfind (root ++ lead components ++ part)).map (max (bytes root))).getD (bytes root) =
      bytes (root ++ join components) := by
  unfold lead
  by_cases none : components = []
  · rw [if_pos none, none, append_nil]
    have empty : join [] = [] := rfl
    rw [empty, append_nil]
    rcases open_ with rfl | ⟨front, rfl⟩
    · rw [nil_append, rfind_free free]
      rfl
    · rw [append_assoc, singleton_append, rfind_append front free]
      simp only [Option.map_some, Option.getD_some, bytes_append]
      omega
  · rw [if_neg none, ← append_assoc, append_assoc, singleton_append, rfind_append _ free]
    simp only [Option.map_some, Option.getD_some, bytes_append]
    omega

theorem endsUp_iff {front last : Text} (free : '/' ∉ last) (open_ : Open front) :
    (front ++ last = ['.', '.'] ∨ ['/', '.', '.'].isSuffixOf (front ++ last) = true) ↔ last = ['.', '.'] := by
  have dots : '/' ∉ ['.', '.'] := by decide
  rw [isSuffixOf_iff_suffix]
  rcases open_ with rfl | ⟨front, rfl⟩
  · rw [nil_append]
    constructor
    · rintro (same | ⟨before, shape⟩)
      · exact same
      · exact absurd (by rw [← shape]; simp) free
    · exact .inl
  rw [append_assoc, singleton_append]
  constructor
  · rintro (same | ⟨before, shape⟩)
    · exact absurd (by rw [← same]; simp) dots
    · exact (Split.cut_last_unique dots free shape).2.symm
  · rintro rfl
    exact .inr ⟨front, rfl⟩
end

variable {root : Text} {components : List Text} {fileName front : Text} {s : Pass}

/-- There is something for a `..` to drop, or a root that keeps it. -/
def canDrop (root : Text) (components : List Text) : Bool :=
  root ≠ [] || (components ≠ [] && components.getLast? ≠ some ['.', '.'])

structure Reduced (root : Text) (components : List Text) : Prop where
  proper : ∀ c ∈ components, Proper c
  down : root ≠ [] → ['.', '.'] ∉ components

theorem Reduced.step (reduced : Reduced root components) {segment : Text} (free : '/' ∉ segment)
    (slashed : Slashed segment) : Reduced root (reduceStep root components segment) :=
  ⟨reduceStep_proper reduced.proper free slashed, fun rooted => reduceStep_rooted rooted (reduced.down rooted) segment⟩

theorem open_lead (open_ : Open root) (components : List Text) : Open (root ++ lead components) := by
  unfold lead
  split
  · rw [append_nil]
    exact open_
  · exact .inr ⟨root ++ join components, by simp⟩

theorem seenAfter_iff (rootLength : Nat) (text : Text) : seenAfter rootLength text = true ↔
    (bytes text ≠ rootLength ∨ rootLength ≠ 0) ∧ ¬(text = ['.', '.'] ∨ ['/', '.', '.'].isSuffixOf text = true) := by
  simp only [seenAfter, Bool.and_eq_true, Bool.or_eq_true, decide_eq_true_eq, Bool.not_eq_true', not_or,
    Bool.not_eq_true, and_assoc]

theorem canDrop_iff : canDrop root components = true ↔ root ≠ [] ∨ components ≠ [] ∧ components.getLast? ≠ some ['.', '.'] := by
  simp [canDrop]

theorem seenAfter_eq (open_ : Open root) (reduced : Reduced root components) :
    seenAfter (bytes root) (root ++ join components) = canDrop root components := by
  rw [Bool.eq_iff_iff, seenAfter_iff, canDrop_iff]
  by_cases none : components = []
  · have empty : join [] = [] := rfl
    have ends : (root ++ [] = ['.', '.'] ∨ ['/', '.', '.'].isSuffixOf (root ++ []) = true) ↔ [] = ['.', '.'] :=
      endsUp_iff (by simp) open_
    rw [none, empty, ends, append_nil]
    rcases open_ with rfl | ⟨front, rfl⟩
    · simp
    · have positive := bytes_pos (show front ++ ['/'] ≠ [] by simp)
      exact iff_of_true ⟨.inr positive.ne', by simp⟩ (.inl (by simp))
  obtain ⟨rest, last, rfl⟩ := (eq_nil_or_concat' components).resolve_left none
  have lastProper := reduced.proper last (by simp)
  have positive := bytes_pos lastProper.filled
  rw [join_concat, ← append_assoc, endsUp_iff lastProper.free (open_lead open_ rest), List.getLast?_concat]
  by_cases rooted : root = []
  · rw [rooted, bytes_nil, bytes_append]
    constructor
    · rintro ⟨-, other⟩
      exact .inr ⟨none, fun up => other (Option.some.inj up)⟩
    · rintro (absurd_ | ⟨-, other⟩)
      · exact absurd rfl absurd_
      · exact ⟨.inl (by omega), fun up => other (congrArg some up)⟩
  · have other : last ≠ ['.', '.'] := by
      rintro rfl
      exact reduced.down rooted (by simp)
    exact iff_of_true ⟨.inr (bytes_pos rooted).ne', other⟩ (.inl rooted)

/-- The state of the pass after some components: what it has kept of the text, or its result so far. -/
structure Tracks (root front : Text) (components : List Text) (s : Pass) : Prop where
  seen : s.seenNonDotDotSegment = canDrop root components
  changed : s.changed = true → s.normalized = root ++ join components
  kept : s.changed = false → s.normalizedUpTo = bytes (root ++ join components) ∧ front = root ++ lead components

theorem lead_eq (components : List Text) : ∃ gap, lead components = join components ++ gap := by
  unfold lead
  split
  · rename_i none
    exact ⟨[], by rw [none]; rfl⟩
  · exact ⟨['/'], rfl⟩

theorem truncate_lead (open_ : Open root) (components : List Text) {part : Text} (free : '/' ∉ part) :
    (match rfind (root ++ lead components ++ part) with
      | some lastSlash => truncate (root ++ lead components ++ part) (max (bytes root) lastSlash)
      | none => pure root) = Outcome.ok (root ++ join components) := by
  have last := rfind_lead open_ components free
  obtain ⟨gap, shape⟩ := lead_eq components
  cases found : rfind (root ++ lead components ++ part) with
  | none =>
    rw [found] at last
    have empty : bytes (join components) = 0 := by
      simp only [Option.map_none, Option.getD_none, bytes_append] at last
      omega
    have none : join components = [] := by
      by_contra some_
      exact (bytes_pos some_).ne' empty
    rw [none, append_nil]
    rfl
  | some lastSlash =>
    rw [found] at last
    simp only [Option.map_some, Option.getD_some] at last
    have cut : root ++ lead components ++ part = root ++ join components ++ (gap ++ part) := by
      rw [shape]
      simp
    dsimp only
    unfold truncate
    rw [last, cut]
    split
    · rename_i short
      have none : gap ++ part = [] := by
        by_contra some_
        have positive := bytes_pos some_
        rw [bytes_append (root ++ join components)] at short
        omega
      rw [none, append_nil]
    · rw [takeBytes_append]
      rfl

theorem rfind_le {text : Text} {offset : Nat} (found : rfind text = some offset) : offset ≤ bytes text := by
  by_cases slash : '/' ∈ text
  · obtain ⟨back, front, free, shape⟩ : ∃ back front, '/' ∉ back ∧ text.reverse = back ++ '/' :: front :=
      ⟨_, _, Split.not_mem_takeWhile '/' text.reverse, Split.takeWhile_cut (mem_reverse.mpr slash)⟩
    have cut : text = front.reverse ++ '/' :: back.reverse := by
      have again := congrArg List.reverse shape
      simpa using again
    rw [cut, rfind_append _ (by simpa using free)] at found
    cases found
    rw [cut, bytes_append]
    exact Nat.le_add_right _ _
  · rw [rfind_free slash] at found
    cases found

theorem takeBytes_lead (more : Text) (open_ : Open root) (reduced : Reduced root components)
    (drops : canDrop root components = true) :
    (components.getLast?.any endsWide = true →
      takeBytes (root ++ join components ++ more) (bytes (root ++ join components) - 1) = none) ∧
    (components.getLast?.any endsWide = false → ∃ before,
      takeBytes (root ++ join components ++ more) (bytes (root ++ join components) - 1) = some before ∧
      ((rfind before).map (max (bytes root))).getD (bytes root) = bytes (root ++ join components.dropLast)) := by
  by_cases none : components = []
  · have empty : join [] = [] := rfl
    rw [none, empty, append_nil]
    refine ⟨fun wide => absurd wide (by simp), fun _ => ?_⟩
    rcases open_ with rfl | ⟨front, rfl⟩
    · rw [none] at drops
      exact absurd drops (by decide)
    refine ⟨front, takeBytes_beforeLast front '/' more, ?_⟩
    rw [dropLast_nil, empty, append_nil]
    cases found : rfind front with
    | none => rfl
    | some offset =>
      have low := rfind_le found
      simp only [Option.map_some, Option.getD_some, bytes_append]
      omega
  obtain ⟨rest, last, rfl⟩ := (eq_nil_or_concat' components).resolve_left none
  have lastProper := reduced.proper last (by simp)
  obtain ⟨part, x, shape⟩ := (eq_nil_or_concat' last).resolve_left lastProper.filled
  have cut : root ++ join (rest ++ [last]) = root ++ lead rest ++ part ++ [x] := by
    rw [join_concat, shape]
    simp
  have wide : (rest ++ [last]).getLast?.any endsWide = isWide x := by
    rw [List.getLast?_concat, shape]
    simp [endsWide]
  have free : '/' ∉ part := by
    intro inside
    exact lastProper.free (by rw [shape]; exact mem_append_left _ inside)
  rw [cut, takeBytes_beforeLast, wide, dropLast_concat]
  constructor
  · exact fun isWide => if_pos isWide
  · intro narrow
    rw [narrow]
    exact ⟨_, rfl, rfind_lead open_ rest free⟩

theorem Reduced.dropLast (reduced : Reduced root components) : Reduced root components.dropLast :=
  ⟨fun c listed => reduced.proper c (dropLast_subset _ listed),
    fun rooted listed => reduced.down rooted (dropLast_subset _ listed)⟩

theorem join_lead (reduced : Reduced root components) :
    ∃ part, '/' ∉ part ∧ join components = lead components.dropLast ++ part := by
  by_cases none : components = []
  · rw [none]
    exact ⟨[], by simp, by simp [lead, join]⟩
  · obtain ⟨rest, last, rfl⟩ := (eq_nil_or_concat' components).resolve_left none
    rw [join_concat, dropLast_concat]
    exact ⟨last, (reduced.proper last (by simp)).free, rfl⟩

theorem withoutLast_changed (open_ : Open root) (reduced : Reduced root components)
    (tracks : Tracks root front components s) (changed : s.changed = true) :
    withoutLast fileName root s = .ok (root ++ join components.dropLast) := by
  obtain ⟨part, free, shape⟩ := join_lead reduced
  have whole : s.normalized = root ++ lead components.dropLast ++ part := by
    rw [tracks.changed changed, shape, append_assoc]
  have truncated := truncate_lead open_ components.dropLast free
  unfold withoutLast
  rw [changed, whole]
  exact truncated

theorem filled_of_canDrop (reduced : Reduced root components) (drops : canDrop root components = true) :
    root ++ join components ≠ [] := by
  intro none
  obtain ⟨noRoot, noComponents⟩ := append_eq_nil_iff.mp none
  rcases canDrop_iff.mp drops with rooted | ⟨some_, -⟩
  · exact rooted noRoot
  · exact join_ne_nil some_ reduced.proper noComponents

theorem withoutLast_kept {rest : Text} (open_ : Open root) (reduced : Reduced root components)
    (tracks : Tracks root front components s) (whole : fileName = front ++ rest)
    (drops : canDrop root components = true) (changed : s.changed = false) :
    withoutLast fileName root s = if components.getLast?.any endsWide then .panic notBoundary
      else .ok (root ++ join components.dropLast) := by
  obtain ⟨upTo, kept⟩ := tracks.kept changed
  obtain ⟨gap, shape⟩ := lead_eq components
  obtain ⟨gap', shape'⟩ := lead_eq components.dropLast
  obtain ⟨part, -, last⟩ := join_lead reduced
  have file : fileName = root ++ join components ++ (gap ++ rest) := by
    rw [whole, kept, shape]
    simp
  have file' : fileName = root ++ join components.dropLast ++ (gap' ++ part ++ (gap ++ rest)) := by
    rw [file, last, shape']
    simp
  have positive : s.normalizedUpTo > 0 := by
    rw [upTo]
    exact bytes_pos (filled_of_canDrop reduced drops)
  obtain ⟨cut, cut'⟩ := takeBytes_lead (gap ++ rest) open_ reduced drops
  rw [← file, ← upTo] at cut cut'
  unfold withoutLast lastCut
  rw [changed, if_pos positive]
  cases wide : components.getLast?.any endsWide with
  | true =>
    rw [cut wide]
    rfl
  | false =>
    obtain ⟨before, taken, offset⟩ := cut' wide
    have first : takeBytes fileName (bytes (root ++ join components.dropLast)) = some (root ++ join components.dropLast) := by
      rw [file', takeBytes_append]
    rw [← offset] at first
    rw [taken]
    change sliced (takeBytes fileName _) = _
    rw [first]
    rfl

theorem reduceStep_regular {segment : Text} (filled : segment ≠ []) (notDot : segment ≠ ['.'])
    (notUp : segment ≠ ['.', '.']) : reduceStep root components segment = components ++ [segment] := by
  unfold reduceStep
  rw [if_neg (by simp [filled, notDot]), if_neg notUp]

theorem reduceStep_up (reduced : Reduced root components) : reduceStep root components ['.', '.'] =
    if canDrop root components then components.dropLast else components ++ [['.', '.']] := by
  unfold reduceStep
  rw [if_neg (by decide), if_pos rfl]
  by_cases pop : components ≠ [] ∧ components.getLast? ≠ some ['.', '.']
  · rw [if_pos pop, if_pos (canDrop_iff.mpr (.inr pop))]
  rw [if_neg pop]
  by_cases rooted : root ≠ []
  · have none : components = [] := by
      by_contra some_
      exact pop ⟨some_, fun last => reduced.down rooted (mem_of_getLast? last)⟩
    rw [if_pos ⟨none, rooted⟩, if_pos (canDrop_iff.mpr (.inl rooted)), none]
    rfl
  · rw [if_neg (fun both => rooted both.2), if_neg (fun drops => (canDrop_iff.mp drops).elim rooted pop)]

theorem bytes_eq_root_iff (reduced : Reduced root components) :
    bytes (root ++ join components) = bytes root ↔ components = [] := by
  constructor
  · intro same
    by_contra some_
    have positive := bytes_pos (join_ne_nil some_ reduced.proper)
    rw [bytes_append] at same
    omega
  · rintro rfl
    have empty : join [] = [] := rfl
    rw [empty, append_nil]

theorem append_component (reduced : Reduced root components) (component : Text) :
    (if bytes (root ++ join components) = bytes root then root ++ join components
      else root ++ join components ++ ['/']) ++ component = root ++ join (components ++ [component]) := by
  rw [join_concat, lead]
  by_cases none : components = []
  · have empty : join [] = [] := rfl
    rw [if_pos ((bytes_eq_root_iff reduced).mpr none), if_pos none, none, empty]
    simp
  · rw [if_neg fun same => none ((bytes_eq_root_iff reduced).mp same), if_neg none]
    simp

theorem Tracks.of_changed (changed : s.changed = true)
    (same : s.normalized = root ++ join components) (seen : s.seenNonDotDotSegment = canDrop root components) :
    Tracks root front components s :=
  ⟨seen, fun _ => same, fun kept => absurd (changed.symm.trans kept) (by decide)⟩

theorem Tracks.of_kept (kept : s.changed = false)
    (upTo : s.normalizedUpTo = bytes (root ++ join components)) (same : front = root ++ lead components)
    (seen : s.seenNonDotDotSegment = canDrop root components) : Tracks root front components s :=
  ⟨seen, fun changed => absurd (kept.symm.trans changed) (by decide), fun _ => ⟨upTo, same⟩⟩

variable {fileName front more segment : Text} {s : Pass}

/-- What a segment has to lead to: the state of the reduced components. -/
def Leads (root next : Text) (components : List Text) (changed : Bool) (result : Outcome Pass) : Prop :=
  ∃ s', result = .ok s' ∧ Tracks root next components s' ∧ s'.changed = changed

theorem takeSegment_dot (index segmentEnd : Nat) (next : Text) (tracks : Tracks root front components s)
    (whole : fileName = front ++ more) :
    Leads root next components true (takeSegment fileName root ['.'] index segmentEnd s) := by
  unfold takeSegment Leads
  cases changed : s.changed with
  | true => exact ⟨s, rfl, .of_changed changed (tracks.changed changed) tracks.seen, changed⟩
  | false =>
    obtain ⟨upTo, kept⟩ := tracks.kept changed
    obtain ⟨gap, shape⟩ := lead_eq components
    have file : fileName = root ++ join components ++ (gap ++ more) := by
      rw [whole, kept, shape]
      simp
    have cut : takeBytes fileName s.normalizedUpTo = some (root ++ join components) := by
      rw [file, upTo, takeBytes_append]
    rw [cut]
    exact ⟨_, rfl, .of_changed rfl rfl tracks.seen, rfl⟩

theorem takeSegment_regular (reduced : Reduced root components) (tracks : Tracks root front components s)
    (filled : segment ≠ []) (notDot : segment ≠ ['.']) (notUp : segment ≠ ['.', '.']) (index : Nat) :
    Leads root (front ++ segment ++ ['/']) (reduceStep root components segment) s.changed
      (takeSegment fileName root segment index (bytes (front ++ segment)) s) := by
  have drops : canDrop root (components ++ [segment]) = true := by
    refine canDrop_iff.mpr (.inr ⟨by simp, ?_⟩)
    rw [List.getLast?_concat]
    exact fun same => notUp (Option.some.inj same)
  unfold takeSegment Leads
  rw [if_neg notDot, if_neg notUp, reduceStep_regular filled notDot notUp]
  cases changed : s.changed with
  | true =>
    refine ⟨_, rfl, .of_changed rfl ?_ drops.symm, rfl⟩
    rw [← append_component reduced segment, tracks.changed changed]
    simp only [ne_eq, ite_not]
  | false =>
    obtain ⟨-, kept⟩ := tracks.kept changed
    refine ⟨_, rfl, .of_kept rfl ?_ ?_ drops.symm, rfl⟩
    · rw [kept, join_concat, append_assoc]
    · rw [kept, lead_concat]
      simp

theorem takeSegment_up (fileName root : Text) (index segmentEnd : Nat) (s : Pass) :
    takeSegment fileName root ['.', '.'] index segmentEnd s =
      if s.seenNonDotDotSegment = false then
        if s.changed then .ok { s with normalized :=
          s.normalized ++ (if bytes s.normalized = bytes root then ['.', '.'] else ['/', '.', '.']) }
        else .ok { s with normalizedUpTo := index + 2 }
      else dropSegment fileName root s := by
  unfold takeSegment
  cases s.seenNonDotDotSegment <;> rfl

theorem takeSegment_drop (open_ : Open root) (reduced : Reduced root components) (tracks : Tracks root front components s)
    (whole : fileName = front ++ more) (drops : canDrop root components = true) (index segmentEnd : Nat) (next : Text) :
    if s.changed = false ∧ components.getLast?.any endsWide = true then
      takeSegment fileName root ['.', '.'] index segmentEnd s = .panic notBoundary
    else Leads root next (reduceStep root components ['.', '.']) true
      (takeSegment fileName root ['.', '.'] index segmentEnd s) := by
  have seen := seenAfter_eq open_ reduced.dropLast
  have turn : takeSegment fileName root ['.', '.'] index segmentEnd s = dropSegment fileName root s := by
    rw [takeSegment_up, tracks.seen, drops]
    rfl
  have step : reduceStep root components ['.', '.'] = components.dropLast := by
    rw [reduceStep_up reduced, if_pos drops]
  rw [turn, step]
  unfold dropSegment Leads
  cases changed : s.changed with
  | true =>
    rw [if_neg (by simp), withoutLast_changed open_ reduced tracks changed]
    exact ⟨_, rfl, .of_changed rfl rfl seen, rfl⟩
  | false =>
    rw [withoutLast_kept open_ reduced tracks whole drops changed]
    cases components.getLast?.any endsWide with
    | true => rfl
    | false => exact ⟨_, rfl, .of_changed rfl rfl seen, rfl⟩

theorem takeSegment_stay (reduced : Reduced root components) (tracks : Tracks root front components s)
    (drops : canDrop root components = false) (segmentEnd : Nat) :
    Leads root (front ++ ['.', '.'] ++ ['/']) (reduceStep root components ['.', '.']) s.changed
      (takeSegment fileName root ['.', '.'] (bytes front) segmentEnd s) := by
  have stays : s.seenNonDotDotSegment = canDrop root (components ++ [['.', '.']]) := by
    have unrooted : root = [] := by
      by_contra rooted
      exact absurd (drops.symm.trans (canDrop_iff.mpr (.inl rooted))) (by decide)
    rw [tracks.seen, drops, canDrop, List.getLast?_concat, unrooted]
    simp
  have step : reduceStep root components ['.', '.'] = components ++ [['.', '.']] := by
    rw [reduceStep_up reduced, drops]
    rfl
  rw [takeSegment_up, if_pos (tracks.seen.trans drops), step]
  cases changed : s.changed with
  | true =>
    refine ⟨_, rfl, .of_changed rfl ?_ stays, rfl⟩
    have grown := append_component reduced ['.', '.']
    rw [← tracks.changed changed] at grown
    rw [← grown]
    split <;> simp
  | false =>
    obtain ⟨-, kept⟩ := tracks.kept changed
    refine ⟨_, rfl, .of_kept rfl ?_ ?_ stays, rfl⟩
    · rw [kept, join_concat, ← append_assoc, bytes_append (root ++ lead components)]
      rfl
    · rw [kept, lead_concat]
      simp

end TypeScriptRs.Paths
