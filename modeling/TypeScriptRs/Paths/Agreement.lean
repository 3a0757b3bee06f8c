import TypeScriptRs.Paths.Simple

/-! The run of the single pass, and when it agrees with the component-based normalization. -/
namespace TypeScriptRs.Paths
open Machine Utf8 List

/-- The first thing dropped is a component before a `..`, and it ends in a wide character. -/
def dropsAfterWide : Bool → Option Text → List Text → Bool
  | _, _, [] => false
  | seen, last, segment :: segments =>
    if segment = [] ∨ segment = ['.'] then false
    else if segment = ['.', '.'] then
      if seen then last.any endsWide else dropsAfterWide false (some segment) segments
    else dropsAfterWide true (some segment) segments

def cutsInside (changed : Bool) (root : Text) (components segments : List Text) : Bool :=
  segments.any startsWide || (!changed && dropsAfterWide (canDrop root components) components.getLast? segments)

section
variable {root fileName front : Text} {components : List Text} {s : Pass} {slashes text part more : Text}

theorem takeWhile_slashes (rest : Text) : ∃ slashes text, rest = slashes ++ text ∧ (∀ c ∈ slashes, c = '/') ∧
    rest.takeWhile (· = '/') = slashes ∧ rest.dropWhile (· = '/') = text ∧ text.head? ≠ some '/' := by
  refine ⟨_, _, takeWhile_append_dropWhile.symm, fun c listed => ?_, rfl, rfl, ?_⟩
  · simpa using mem_takeWhile_imp listed
  · intro head
    have other := List.head?_dropWhile_not (· = '/') rest
    rw [head] at other
    simp at other

theorem bytes_slashes (all : ∀ c ∈ slashes, c = '/') : bytes slashes = slashes.length := by
  rw [eq_replicate_of_mem all, bytes_replicate, length_replicate]
  exact Nat.mul_one _

theorem skipSlashes_eq (all : ∀ c ∈ slashes, c = '/') (other : text.head? ≠ some '/') :
    skipSlashes (front ++ (slashes ++ text)) (bytes front) = bytes (front ++ slashes) := by
  have taken : (slashes ++ text).takeWhile (· = '/') = slashes := by
    rw [takeWhile_append_of_pos (by simpa using all)]
    cases text with
    | nil => simp
    | cons c text =>
      have differs : c ≠ '/' := fun same => other (congrArg some same)
      rw [takeWhile_cons_of_neg (by simpa using differs), append_nil]
  unfold skipSlashes
  rw [dropBytes_append, Option.getD_some, taken, bytes_append, bytes_slashes all]

theorem dropSlashes_leads (tracks : Tracks root front components s) (at_ : s.index = bytes front)
    (whole : fileName = front ++ (slashes ++ text)) (some_ : slashes ≠ []) (next : Text) :
    Leads root next components true (dropSlashes fileName root (bytes (front ++ slashes)) s) := by
  have later : bytes (front ++ slashes) > s.index := by
    have positive := bytes_pos some_
    rw [bytes_append]
    omega
  unfold dropSlashes Leads
  cases changed : s.changed with
  | true =>
    rw [if_neg (by simp)]
    exact ⟨s, rfl, .of_changed changed (tracks.changed changed) tracks.seen, changed⟩
  | false =>
    obtain ⟨-, kept⟩ := tracks.kept changed
    have cut : takeBytes fileName (max (bytes root) (s.index - 1)) = some (root ++ join components) := by
      rw [whole, at_, kept]
      unfold lead
      split
      · rename_i none
        have empty : join [] = [] := rfl
        have offset : max (bytes root) (bytes (root ++ []) - 1) = bytes root := by
          rw [append_nil]
          omega
        rw [offset, none, empty, append_nil, takeBytes_append]
      · have offset : max (bytes root) (bytes (root ++ (join components ++ ['/'])) - 1) = bytes (root ++ join components) := by
          have slash : bytes ['/'] = 1 := rfl
          rw [bytes_append, bytes_append, bytes_append, slash]
          omega
        rw [offset, ← append_assoc root, append_assoc, takeBytes_append]
    rw [if_pos ⟨later, rfl⟩, cut]
    exact ⟨_, rfl, .of_changed rfl rfl tracks.seen, rfl⟩

def Ends (more : Text) : Prop := more = [] ∨ ∃ rest, more = '/' :: rest

theorem find_segment (free : '/' ∉ part) (ends : Ends more) (start : Nat) :
    ((find (part ++ more)).map (start + ·)).getD (start + bytes (part ++ more)) = start + bytes part := by
  unfold find
  rcases ends with rfl | ⟨rest, rfl⟩
  · rw [append_nil, if_neg free]
    rfl
  · rw [if_pos (by simp), Split.takeWhile_append_cons free]
    rfl

theorem segment_cut {c : Char} (whole : fileName = front ++ (c :: part ++ more))
    (free : '/' ∉ c :: part) (ends : Ends more) (narrow : isWide c = false) :
    dropBytes fileName (bytes front + 1) = some (part ++ more) ∧
      ((find (part ++ more)).map (bytes front + 1 + ·)).getD (bytes fileName) = bytes (front ++ c :: part) ∧
      slice fileName (bytes front) (bytes (front ++ c :: part)) = some (c :: part) := by
  have one : c.utf8Size = 1 := by simpa [isWide] using narrow
  have length : bytes fileName = bytes front + 1 + bytes (part ++ more) := by
    rw [whole, bytes_append, cons_append, bytes_cons, one]
    omega
  refine ⟨?_, ?_, ?_⟩
  · rw [whole, cons_append, dropBytes_one, narrow]
    rfl
  · rw [length, find_segment (fun listed => free (mem_cons_of_mem _ listed)) ends, bytes_append, bytes_cons, one]
    omega
  · rw [whole, ← append_assoc, bytes_append, slice_append]

theorem cutsInside_changed (root : Text) (components segments : List Text) :
    cutsInside true root components segments = segments.any startsWide := by
  simp [cutsInside]

theorem takeSegment_turn {segment : Text} (open_ : Open root) (reduced : Reduced root components)
    (tracks : Tracks root front components s) (whole : fileName = front ++ (segment ++ more)) (filled : segment ≠ [])
    (narrow : startsWide segment = false) (segments : List Text) :
    (takeSegment fileName root segment (bytes front) (bytes (front ++ segment)) s = .panic notBoundary ∧
      cutsInside s.changed root components (segment :: segments) = true) ∨
    ∃ changed, Leads root (front ++ segment ++ ['/']) (reduceStep root components segment) changed
        (takeSegment fileName root segment (bytes front) (bytes (front ++ segment)) s) ∧
      cutsInside changed root (reduceStep root components segment) segments =
        cutsInside s.changed root components (segment :: segments) ∧ (s.changed = true → changed = true) := by
  by_cases dot : segment = ['.']
  · cases dot
    refine .inr ⟨true, takeSegment_dot _ _ _ tracks whole, ?_, fun _ => rfl⟩
    simp [cutsInside, narrow, dropsAfterWide]
  by_cases up : segment = ['.', '.']
  · cases up
    cases drops : canDrop root components with
    | true =>
      have turn := takeSegment_drop open_ reduced tracks whole drops (bytes front) (bytes (front ++ ['.', '.']))
        (front ++ ['.', '.'] ++ ['/'])
      split at turn
      · rename_i wide
        refine .inl ⟨turn, ?_⟩
        simp [cutsInside, narrow, dropsAfterWide, drops, wide]
      rename_i fine
      refine .inr ⟨true, turn, ?_, fun _ => rfl⟩
      rw [cutsInside_changed]
      cases changed : s.changed with
      | true => simp [cutsInside, narrow]
      | false =>
        have notWide : components.getLast?.any endsWide = false := by simpa [changed] using fine
        simp [cutsInside, narrow, dropsAfterWide, drops, notWide]
    | false =>
      refine .inr ⟨s.changed, takeSegment_stay reduced tracks drops _, ?_, id⟩
      have stays : canDrop root (components ++ [['.', '.']]) = false := by
        simp [canDrop] at drops ⊢
        exact drops.1
      rw [reduceStep_up reduced, drops, if_neg (by decide)]
      simp [cutsInside, narrow, dropsAfterWide, drops, stays]
  · refine .inr ⟨s.changed, takeSegment_regular reduced tracks filled dot up _, ?_, id⟩
    have seen : canDrop root (components ++ [segment]) = true := by
      simp [canDrop, up]
    rw [reduceStep_regular filled dot up]
    simp [cutsInside, narrow, dropsAfterWide, seen, filled, dot, up]

/-- The pass is over: it has the reduced components, or the text was reduced already. -/
structure Final (root fileName : Text) (components : List Text) (s : Pass) : Prop where
  changed : s.changed = true → s.normalized = root ++ join components
  kept : s.changed = false → fileName = root ++ join components ∨ fileName = root ++ lead components

def Ended (root fileName : Text) (components : List Text) (cuts : Bool) (result : Outcome Pass) : Prop :=
  if cuts then result = .panic notBoundary else ∃ s, result = .ok s ∧ Final root fileName components s

theorem first_segment (some_ : text ≠ []) (head : text.head? ≠ some '/') : ∃ c part more,
    text = c :: part ++ more ∧ '/' ∉ c :: part ∧ Ends more := by
  by_cases slash : '/' ∈ text
  · have cut := Split.takeWhile_cut slash
    have free := Split.not_mem_takeWhile '/' text
    cases first : text.takeWhile (· ≠ '/') with
    | nil =>
      rw [first] at cut
      exact absurd (by rw [cut]; rfl) head
    | cons c part =>
      rw [first] at cut free
      exact ⟨c, part, _, cut, free, .inr ⟨_, rfl⟩⟩
  · obtain ⟨c, part, rfl⟩ := exists_cons_of_ne_nil some_
    exact ⟨c, part, [], (append_nil _).symm, slash, .inl rfl⟩

theorem lead_cut {segment : Text} {components' : List Text} (before : front = root ++ lead components)
    (after : front ++ segment ++ ['/'] = root ++ lead components') : front ++ segment = root ++ join components' := by
  have tail : lead components ++ segment ++ ['/'] = lead components' := by
    rw [before, append_assoc, append_assoc] at after
    simpa using after
  have some_ : components' ≠ [] := by
    rintro rfl
    exact absurd tail (by simp [lead])
  have shape : lead components' = join components' ++ ['/'] := if_neg some_
  rw [before, append_assoc, append_cancel_right (tail.trans shape)]

theorem Ended.segment {next : Pass → Outcome Pass} (open_ : Open root) (reduced : Reduced root components)
    (tracks : Tracks root front components s) (whole : fileName = front ++ text) (some_ : text ≠ [])
    (head : text.head? ≠ some '/') (slashed : Slashed text)
    (last : ∀ s, s.index > bytes fileName → next s = .ok s)
    (later : ∀ segment rest components s, text = segment ++ '/' :: rest → Slashed rest → Reduced root components →
      Tracks root (front ++ segment ++ ['/']) components s → s.index = bytes (front ++ segment ++ ['/']) →
      Ended root fileName (reduceText root components rest) (cutsInside s.changed root components (rest.splitOn '/')) (next s)) :
    Ended root fileName (reduceText root components text) (cutsInside s.changed root components (text.splitOn '/')) (do
      let rest ← sliced (dropBytes fileName (bytes front + 1))
      let segmentEnd := ((find rest).map (bytes front + 1 + ·)).getD (bytes fileName)
      let segment ← sliced (slice fileName (bytes front) segmentEnd)
      let s' ← takeSegment fileName root segment (bytes front) segmentEnd s
      next { s' with index := segmentEnd + 1 }) := by
  obtain ⟨c, part, more, rfl, free, ends⟩ := first_segment some_ head
  have slashed' : Slashed (c :: part) := fun listed => slashed (mem_append_left _ listed)
  have reduced' := reduced.step free slashed'
  cases wide : isWide c with
  | true =>
    have starts : startsWide (c :: part) = true := wide
    have cuts : cutsInside s.changed root components ((c :: part ++ more).splitOn '/') = true := by
      rcases ends with rfl | ⟨rest, rfl⟩
      · rw [append_nil, splitOn_eq_singleton free]
        simp [cutsInside, starts]
      · rw [Split.splitOn_append_free free]
        simp [cutsInside, starts]
    rw [Ended, if_pos cuts, whole, cons_append, dropBytes_one, if_pos wide]
    rfl
  | false =>
    obtain ⟨after, segmentEnd, segment⟩ := segment_cut whole free ends wide
    rw [after]
    change Ended _ _ _ _ (do
      let segment ← sliced (slice fileName (bytes front) _)
      let s' ← takeSegment fileName root segment (bytes front) _ s
      next { s' with index := _ + 1 })
    rw [segmentEnd, segment]
    change Ended _ _ _ _ (do
      let s' ← takeSegment fileName root (c :: part) (bytes front) _ s
      next { s' with index := _ + 1 })
    have turn := takeSegment_turn open_ reduced tracks whole (cons_ne_nil c part) wide
    rcases ends with rfl | ⟨rest, rfl⟩
    · rw [append_nil, splitOn_eq_singleton free, reduceText_free free]
      rcases turn [] with ⟨panics, cuts⟩ | ⟨changed, ⟨s', ok, tracks', same⟩, cuts, grows⟩
      · rw [Ended, if_pos cuts, panics]
        rfl
      have fine : cutsInside changed root (reduceStep root components (c :: part)) [] = false := by
        simp [cutsInside, dropsAfterWide]
      rw [Ended, ← cuts, fine, ok]
      have past : { s' with index := bytes (front ++ c :: part) + 1 }.index > bytes fileName := by
        rw [whole, append_nil]
        exact Nat.lt_succ_self _
      refine ⟨_, last _ past, tracks'.changed, fun kept => .inl ?_⟩
      have kept' : s.changed = false := by
        by_contra other
        have changed' := grows (by simpa using other)
        exact absurd (kept.symm.trans (same.trans changed')) (by decide)
      rw [whole, append_nil]
      exact lead_cut (tracks.kept kept').2 (tracks'.kept kept).2
    · rw [Split.splitOn_append_free free, reduceText_append, reduceText_free free]
      rcases turn (rest.splitOn '/') with ⟨panics, cuts⟩ | ⟨changed, ⟨s', ok, tracks', same⟩, cuts, -⟩
      · rw [Ended, if_pos cuts, panics]
        rfl
      rw [← cuts, ok, ← same]
      refine later (c :: part) rest _ { s' with index := bytes (front ++ c :: part) + 1 } rfl ?_ reduced' ?_ ?_
      · exact fun listed => slashed (mem_append_right _ (mem_cons_of_mem _ listed))
      · exact ⟨tracks'.seen, tracks'.changed, tracks'.kept⟩
      · rw [bytes_append (front ++ c :: part)]
        rfl

theorem cutsInside_slashes (all : ∀ c ∈ slashes, c = '/') (some_ : slashes ≠ []) (text : Text)
    (changed : Bool) : cutsInside changed root components ((slashes ++ text).splitOn '/') =
      cutsInside true root components (text.splitOn '/') := by
  have first : ∀ rest : Text, ([] ++ '/' :: rest).splitOn '/' = [] :: rest.splitOn '/' :=
    fun rest => Split.splitOn_append_free (by simp) rest
  simp only [nil_append] at first
  have any : ((slashes ++ text).splitOn '/').any startsWide = (text.splitOn '/').any startsWide := by
    clear some_
    induction slashes with
    | nil => rfl
    | cons c slashes ih =>
      rw [all c (by simp), cons_append, first, any_cons, ih fun x listed => all x (mem_cons_of_mem _ listed)]
      rfl
  obtain ⟨c, slashes, rfl⟩ := exists_cons_of_ne_nil some_
  rw [cutsInside_changed, ← any]
  unfold cutsInside
  rw [all c (by simp), cons_append, first, dropsAfterWide, if_pos (.inl rfl), Bool.and_false, Bool.or_false]

theorem reduceText_slashes (all : ∀ c ∈ slashes, c = '/') (text : Text) :
    reduceText root components (slashes ++ text) = reduceText root components text := by
  induction slashes with
  | nil => rfl
  | cons c slashes ih =>
    rw [all c (by simp), cons_append, reduceText_slash, ih fun x listed => all x (mem_cons_of_mem _ listed)]

theorem Ended.nothing (tracks : Tracks root front components s) (whole : fileName = front) :
    Ended root fileName (reduceText root components []) (cutsInside s.changed root components ([].splitOn '/')) (.ok s) := by
  have fine : cutsInside s.changed root components ([].splitOn '/') = false := by
    simp [cutsInside, dropsAfterWide, startsWide]
  rw [reduceText_nil, Ended, fine]
  exact ⟨s, rfl, tracks.changed, fun kept => .inr (whole.trans (tracks.kept kept).2)⟩

/-- The whole pass, by induction on the turns: it ends with the reduced components of the text that is left. -/
theorem pass_ended (open_ : Open root) : ∀ fuel front rest components s, rest.length ≤ fuel → fileName = front ++ rest →
    s.index = bytes front → Slashed rest → Reduced root components → Tracks root front components s →
    Ended root fileName (reduceText root components rest) (cutsInside s.changed root components (rest.splitOn '/'))
      (pass fileName root fuel s) := by
  intro fuel
  induction fuel with
  | zero =>
    intro front rest components s enough whole _ _ _ tracks
    cases length_eq_zero_iff.mp (Nat.le_zero.mp enough)
    exact .nothing tracks (by rw [whole, append_nil])
  | succ fuel ih =>
    intro front rest components s enough whole at_ slashed reduced tracks
    by_cases none : rest = []
    · rw [pass, if_neg (by rw [at_, whole, none, append_nil]; exact Nat.lt_irrefl _), none]
      exact .nothing tracks (by rw [whole, none, append_nil])
    have more : s.index < bytes fileName := by
      have positive := bytes_pos none
      rw [at_, whole, bytes_append]
      omega
    obtain ⟨slashes, text, rfl, all, -, -, head⟩ := takeWhile_slashes rest
    have skip : skipSlashes fileName s.index = bytes (front ++ slashes) := by
      rw [whole, at_, skipSlashes_eq all head]
    have last : ∀ s, s.index > bytes fileName → pass fileName root fuel s = .ok s := by
      intro s past
      cases fuel with
      | zero => rfl
      | succ fuel => rw [pass, if_neg (by omega)]
    have step : ∀ segment rest' components s', text = segment ++ '/' :: rest' → Slashed rest' →
        Reduced root components → Tracks root (front ++ slashes ++ segment ++ ['/']) components s' →
        s'.index = bytes (front ++ slashes ++ segment ++ ['/']) →
        Ended root fileName (reduceText root components rest')
          (cutsInside s'.changed root components (rest'.splitOn '/')) (pass fileName root fuel s') := by
      intro segment rest' components s' shape slashed' reduced' tracks' at'
      refine ih (front ++ slashes ++ segment ++ ['/']) rest' components s' ?_ ?_ at' slashed' reduced' tracks'
      · rw [shape, length_append, length_append, length_cons] at enough
        omega
      · rw [whole, shape]
        simp
    have whole' : fileName = front ++ slashes ++ text := by rw [whole, append_assoc]
    have slashed' : Slashed text := fun listed => slashed (mem_append_right _ listed)
    rw [pass, if_pos more, skip]
    dsimp only
    by_cases noSlash : slashes = []
    · have same : bytes (front ++ slashes) = s.index := by rw [noSlash, append_nil, at_]
      have front' : front ++ slashes = front := by rw [noSlash, append_nil]
      have kept : dropSlashes fileName root (bytes (front ++ slashes)) s = .ok s :=
        if_neg fun later => Nat.lt_irrefl _ (same ▸ later.1)
      have stays : ¬(bytes (front ++ slashes) > s.index ∧ bytes (front ++ slashes) = bytes fileName) :=
        fun later => Nat.lt_irrefl _ (same ▸ later.1)
      have rest' : slashes ++ text = text := by rw [noSlash, nil_append]
      rw [kept, Outcome.monad_bind, Outcome.bind_ok, if_neg stays, rest']
      exact .segment open_ reduced (front'.symm ▸ tracks) whole' (rest' ▸ none) head slashed' last step
    obtain ⟨s', ok, tracks', changed⟩ := dropSlashes_leads tracks at_ whole noSlash (front ++ slashes)
    rw [ok, Outcome.monad_bind, Outcome.bind_ok, cutsInside_slashes all noSlash, ← changed, reduceText_slashes all]
    split
    · rename_i past
      have nothing : text = [] := by
        by_contra some_
        have positive := bytes_pos some_
        rw [whole', bytes_append (front ++ slashes)] at past
        omega
      rw [nothing] at whole' ⊢
      exact .nothing tracks' (by rw [whole', append_nil])
    rename_i stays
    have some_ : text ≠ [] := by
      intro nothing
      refine stays ⟨?_, by rw [whole', nothing, append_nil]⟩
      have positive := bytes_pos noSlash
      rw [at_, bytes_append]
      omega
    exact .segment open_ reduced tracks' whole' some_ head slashed' last step
end

variable {path : Text} {trimmed simple : Text} {components : List Text}

/-- A path that is a root and nothing more, without a slash at its end. -/
def BareRoot (path : Text) : Prop := rootOf path = path ∧ path ≠ [] ∧ path.getLast? ≠ some '/'

def SlicesInside (path : Text) : Prop :=
  simpleNormalizePath path = none ∧ ((∃ segment ∈ (afterRoot path).splitOn '/', startsWide segment = true) ∨
    dropsAfterWide (rootOf path ≠ []) none ((afterRoot path).splitOn '/') = true)

theorem open_rootOf (slashed : Slashed path) (notBare : ¬BareRoot path) : Open (rootOf path) := by
  have ofLast : ∀ text : Text, text.getLast? = some '/' → Open text :=
    fun text last => .inr ⟨_, (dropLast_append_getLast? _ last).symm⟩
  rcases rootOf_trailing slashed with none | whole | trailing
  · exact .inl none
  · by_cases empty : path = []
    · exact .inl (whole.trans empty)
    have last : path.getLast? = some '/' := by
      by_contra other
      exact notBare ⟨whole, empty, other⟩
    rw [whole]
    exact ofLast path last
  · exact ofLast _ trailing

theorem normalized_eq_nil_root (bare : rootOf path = path) : normalized path = path := by
  have nothing : afterRoot path = [] := by
    have whole := rootOf_append_afterRoot path
    rw [bare] at whole
    exact append_right_eq_self.mp whole
  have empty : join [] = [] := rfl
  rw [normalized, reducedOf_eq_nil nothing, bare, empty, append_nil]

theorem finish_path (slashed : Slashed path) (notBare : ¬BareRoot path) (fine : hasRelativePathSegment path = false) :
    finish (bytes (rootOf path)) path = normalized path := by
  have whole := rootOf_append_afterRoot path
  have open_ := open_rootOf slashed notBare
  have head : rootOf path = [] → (afterRoot path).head? ≠ some '/' := by
    intro none
    have rest : afterRoot path = path := by rw [afterRoot, none]; rfl
    rw [rest]
    exact head_notSlash none
  have clean := clean_rest open_ head (by rw [whole]; exact fine)
  have result := finish_clean open_ clean (slashed_afterRoot slashed)
  rw [whole] at result
  exact result

theorem double_replaced (double : ∃ front back, path = front ++ '/' :: '/' :: back) :
    ∃ front back, replaceDotSegments path = front ++ '/' :: '/' :: back := by
  obtain ⟨front, back, shape⟩ := double
  exact replaceDotSegments_double shape

theorem single_of_fine (fine : hasRelativePathSegment path = false) : ¬∃ front back, path = front ++ '/' :: '/' :: back := by
  rintro ⟨front, back, rfl⟩
  have loop := hasRelativeSegmentFrom_of_path fine
  rw [hasRelativeSegmentFrom_double] at loop
  cases loop

theorem normalized_unrooted (none : rootOf path = []) : normalized path = join (reduceText [] [] path) := by
  have rest : afterRoot path = path := by
    rw [afterRoot, none]
    rfl
  rw [normalized, reducedOf, none, rest]
  rfl

theorem finish_simplified (slashed : Slashed path) (notBare : ¬BareRoot path)
    (fine : hasRelativePathSegment (replaceDotSegments path) = false) :
    finish (bytes (rootOf path)) (replaceDotSegments path) = normalized path := by
  have slashed' : Slashed (replaceDotSegments path) := fun listed => slashed (mem_replaceDotSegments listed)
  rcases rootOf_single slashed fun double => single_of_fine fine (double_replaced double) with
    none | ⟨front, name, root⟩ | ⟨v, letter, rfl⟩
  · have head : (replaceDotSegments path).head? ≠ some '/' := by
      rw [replaceDotSegments_head]
      exact head_notSlash none
    have open_ : Open [] := .inl rfl
    have clean : Clean (replaceDotSegments path) := clean_rest open_ (fun _ => head) fine
    have result := finish_clean open_ clean slashed'
    have same := reduceText_replaceDotSegments [] [] path (by simp) []
    rw [none, normalized_unrooted none, ← nil_append path, ← same]
    exact result
  · have free := isRootName_free name
    have whole := rootOf_append_afterRoot path
    obtain ⟨rest, kept⟩ := replaceDotSegments_slash (afterRoot path)
    have shape : replaceDotSegments path = rootOf path ++ rest := by
      conv => lhs; rw [← whole, root, append_assoc, singleton_append, replaceDotSegments_front free, kept]
      rw [root]
      simp
    have same : reduceText (rootOf path) [] rest = reducedOf path := by
      have dots := reduceText_replaceDotSegments (rootOf path) [] ('/' :: afterRoot path) (by simp) []
      rw [nil_append, nil_append, kept, reduceText_slash, reduceText_slash] at dots
      exact dots
    have open_ : Open (rootOf path) := .inr ⟨front, root⟩
    have rooted : rootOf path ≠ [] := by
      rw [root]
      simp
    rw [shape] at fine slashed' ⊢
    have clean := clean_rest open_ (fun none => absurd none rooted) fine
    have result := finish_clean open_ clean fun listed => slashed' (mem_append_right _ listed)
    rw [result, same]
    rfl
  · have kept : replaceDotSegments [v, ':'] = [v, ':'] := by
      simp [replaceDotSegments]
    rw [kept] at fine ⊢
    exact finish_path slashed notBare fine

section
variable (slashed : Slashed path) (shape : replaceDotSegments path = '.' :: '/' :: trimmed) (fine : hasRelativePathSegment trimmed = false) (head : trimmed.head? ≠ some '/')
include slashed shape fine head

theorem rootOf_trimmed : rootOf path = [] := by
  have first : path.head? = some '.' := by
    rw [← replaceDotSegments_head, shape]
    rfl
  have single : ¬∃ front back, path = front ++ '/' :: '/' :: back := by
    intro double
    obtain ⟨front, back, shape'⟩ := double_replaced double
    rw [shape] at shape'
    match front, shape' with
    | [], shape' => cases shape'
    | [_], shape' =>
      cases shape'
      exact head rfl
    | _ :: _ :: front, shape' =>
      cases shape'
      exact single_of_fine fine ⟨front, back, rfl⟩
  have whole := rootOf_append_afterRoot path
  rcases rootOf_single slashed single with none | ⟨front, name, root⟩ | ⟨v, letter, rfl⟩
  · exact none
  · rw [← whole, root] at first
    unfold isRootName at name
    split at name
    · cases first
    · cases of_decide_eq_true name
      cases first
    · cases first
      cases name
    · cases name
  · cases first
    cases letter

theorem finish_trimmed : finish (bytes (rootOf path)) trimmed = normalized path := by
  have none := rootOf_trimmed slashed shape fine head
  have open_ : Open [] := .inl rfl
  have clean : Clean trimmed := clean_rest open_ (fun _ => head) fine
  have slashed' : Slashed trimmed := by
    intro listed
    exact slashed (mem_replaceDotSegments (by rw [shape]; simp [listed]))
  have result := finish_clean open_ clean slashed'
  have dots := reduceText_replaceDotSegments [] [] path (by simp) []
  rw [nil_append, nil_append, shape, reduceText_dot] at dots
  rw [none, normalized_unrooted none, ← dots]
  exact result
end

theorem stripDotSlash_cases (path : Text) : stripDotSlash path = path ∨ path = '.' :: '/' :: stripDotSlash path := by
  unfold stripDotSlash
  split
  · exact .inr rfl
  · exact .inl rfl

theorem trimmed_head {simplified : Text} (shape : simplified = '.' :: '/' :: stripDotSlash simplified)
    (head : ¬(stripDotSlash simplified ≠ simplified ∧ (stripDotSlash simplified).head? = some '/')) :
    (stripDotSlash simplified).head? ≠ some '/' := by
  have differs : stripDotSlash simplified ≠ simplified := by
    intro same
    rw [same] at shape
    have longer := congrArg List.length shape
    simp only [length_cons] at longer
    omega
  exact fun slash => head ⟨differs, slash⟩

theorem simple_finish (slashed : Slashed path) (notBare : ¬BareRoot path)
    (found : simpleNormalizePath path = some simple) : finish (bytes (rootOf path)) simple = normalized path := by
  unfold simpleNormalizePath at found
  split at found
  · rename_i fine
    cases found
    exact finish_path slashed notBare (by simpa using fine)
  dsimp only at found
  split at found
  · rename_i ok
    cases found
    obtain ⟨-, fine, head⟩ := ok
    rcases stripDotSlash_cases (replaceDotSegments path) with same | shape
    · rw [same] at fine ⊢
      exact finish_simplified slashed notBare fine
    · exact finish_trimmed slashed shape fine (trimmed_head shape head)
  · cases found

theorem ensureTrailing_bare (bare : BareRoot path) (slashed : Slashed path) : ensureTrailingDirectorySeparator path ≠ path := by
  obtain ⟨-, some_, last⟩ := bare
  have open_ : hasTrailingDirectorySeparator path = false := by
    unfold hasTrailingDirectorySeparator
    cases end_ : path.getLast? with
    | none => rfl
    | some c =>
      have notSlash : c ≠ '/' := fun same => last (by rw [end_, same])
      have notBackslash : c ≠ '\\' := fun same => slashed (same ▸ mem_of_getLast? end_)
      simp [isAnyDirectorySeparator, notSlash, notBackslash]
  rw [ensureTrailingDirectorySeparator, open_]
  exact fun same => absurd (congrArg List.length same) (by simp)

section
variable (slashed : Slashed path) (bare : BareRoot path) (found : simpleNormalizePath path = some simple)
include slashed bare found

theorem simple_of_bare : simple = path := by
  have whole := bare.1
  unfold simpleNormalizePath at found
  split at found
  · exact (Option.some.inj found).symm
  dsimp only at found
  split at found
  · rename_i ok
    obtain ⟨differs, fine, head⟩ := ok
    rcases stripDotSlash_cases (replaceDotSegments path) with same | shape
    · rw [same] at fine differs
      rcases rootOf_single slashed fun double => single_of_fine fine (double_replaced double) with
        none | ⟨front, -, root⟩ | ⟨v, -, rfl⟩
      · exact absurd (whole.symm.trans none) bare.2.1
      · exact absurd (by rw [← whole, root]; exact List.getLast?_concat) bare.2.2
      · exact absurd (by simp [replaceDotSegments]) differs
    · have notHead := trimmed_head shape head
      exact absurd (whole.symm.trans (rootOf_trimmed slashed shape fine notHead)) bare.2.1
  · cases found

theorem simple_bare : finish (bytes (rootOf path)) simple ≠ normalized path := by
  have whole := bare.1
  have positive := bytes_pos bare.2.1
  rw [simple_of_bare slashed bare found, normalized_eq_nil_root whole, whole, finish, if_neg (Nat.lt_irrefl _),
    if_pos ⟨rfl, positive.ne'⟩]
  exact ensureTrailing_bare bare slashed
end

section
variable (root : Text) (proper : ∀ c ∈ components, Proper c) (some_ : components ≠ []) (fuel : Nat)
include root proper some_ fuel

theorem removeTrailings_join : removeTrailingDirectorySeparators fuel (root ++ join components) = root ++ join components := by
  have trailing := hasTrailingDirectorySeparator_join root proper some_
  cases fuel with
  | zero => rfl
  | succ fuel => rw [removeTrailingDirectorySeparators, trailing, if_neg (by decide)]

theorem removeTrailings_lead : removeTrailingDirectorySeparators (fuel + 1) (root ++ lead components) = root ++ join components := by
  have trailing : hasTrailingDirectorySeparator (root ++ lead components) = true := by
    rw [lead, if_neg some_, ← append_assoc]
    exact hasTrailingDirectorySeparator_of_getLast List.getLast?_concat
  rw [removeTrailingDirectorySeparators, if_pos trailing, removeTrailing_lead root some_,
    removeTrailings_join root proper some_]
end

theorem cutsInside_iff (root : Text) (segments : List Text) : cutsInside false root [] segments = true ↔
    (∃ segment ∈ segments, startsWide segment = true) ∨ dropsAfterWide (root ≠ []) none segments = true := by
  have drops : canDrop root [] = decide (root ≠ []) := by simp [canDrop]
  rw [cutsInside, drops]
  simp

/-- What the pass makes of a path: nothing when it cuts inside a character. -/
def passResult (path : Text) : Outcome Text := do
  let s ← pass path (rootOf path) (bytes path)
    { index := bytes (rootOf path), normalizedUpTo := bytes (rootOf path), seenNonDotDotSegment := bytes (rootOf path) ≠ 0 }
  if s.changed then pure s.normalized
  else if bytes path > bytes (rootOf path) then pure (removeTrailingDirectorySeparators (bytes path) path)
  else if bytes path = bytes (rootOf path) then pure (ensureTrailingDirectorySeparator path)
  else pure []

theorem getNormalizedAbsolutePathInOnePass_eq (fileName currentDirectory : Text) (path : Text)
    (same : absoluteFileName fileName currentDirectory = path) :
    getNormalizedAbsolutePathInOnePass fileName currentDirectory =
      match simpleNormalizePath path with
      | some simple => .ok (finish (bytes (rootOf path)) simple)
      | none => passResult path := by
  unfold getNormalizedAbsolutePathInOnePass
  rw [same]
  dsimp only
  rw [getRootLength_eq]
  cases simpleNormalizePath path with
  | some simple =>
    dsimp only
    unfold finish
    split
    · rfl
    · split <;> rfl
  | none =>
    have root : takeBytes path (bytes (rootOf path)) = some (rootOf path) := by
      have cut := takeBytes_append (rootOf path) (afterRoot path)
      rwa [rootOf_append_afterRoot] at cut
    rw [root]
    rfl

theorem length_le_bytes (text : Text) : text.length ≤ bytes text := by
  induction text with
  | nil => exact Nat.le_refl _
  | cons c text ih =>
    have size := c.utf8Size_pos
    rw [length_cons, bytes_cons]
    omega

theorem final_result {s : Pass} (slashed : Slashed path) (some_ : path ≠ []) (notBare : ¬BareRoot path)
    (final : Final (rootOf path) path (reducedOf path) s) :
    (if s.changed then pure s.normalized
      else if bytes path > bytes (rootOf path) then pure (removeTrailingDirectorySeparators (bytes path) path)
      else if bytes path = bytes (rootOf path) then pure (ensureTrailingDirectorySeparator path)
      else pure [] : Outcome Text) = .ok (normalized path) := by
  have proper := reducedOf_proper slashed
  have open_ := open_rootOf slashed notBare
  cases changed : s.changed with
  | true =>
    rw [if_pos rfl, final.changed changed]
    rfl
  | false =>
    by_cases none : reducedOf path = []
    · have whole : path = rootOf path := by
        have kept := final.kept changed
        rw [none] at kept
        have noJoin : join [] = [] := rfl
        have noLead : lead [] = [] := rfl
        rw [noJoin, noLead, append_nil, or_self] at kept
        exact kept
      have trailing : ensureTrailingDirectorySeparator path = path := by
        rw [whole]
        exact ensureTrailing_open open_ (whole ▸ some_)
      rw [← whole, if_neg (Nat.lt_irrefl _), if_pos rfl, trailing, normalized_eq_nil_root whole.symm]
      rfl
    obtain ⟨fuel, positive⟩ := Nat.exists_eq_succ_of_ne_zero (bytes_pos some_).ne'
    have longer : ∀ rest, path = rootOf path ++ rest → rest ≠ [] → bytes path > bytes (rootOf path) := by
      intro rest shape filled
      conv => lhs; rw [shape]
      exact bytes_root_lt _ filled
    rcases final.kept changed with shape | shape
    · have result := removeTrailings_join (rootOf path) proper none (bytes path)
      rw [← shape] at result
      rw [if_pos (longer _ shape (join_ne_nil none proper)), result]
      exact congrArg Outcome.ok shape
    have filled : lead (reducedOf path) ≠ [] := by
      rw [lead, if_neg none]
      simp
    have result := removeTrailings_lead (rootOf path) proper none fuel
    rw [← shape] at result
    rw [if_pos (longer _ shape filled), positive, result]
    rfl

theorem passResult_eq (slashed : Slashed path) (some_ : path ≠ []) (notBare : ¬BareRoot path) :
    passResult path = if cutsInside false (rootOf path) [] ((afterRoot path).splitOn '/') then .panic notBoundary
      else .ok (normalized path) := by
  have whole := rootOf_append_afterRoot path
  have open_ := open_rootOf slashed notBare
  have enough : (afterRoot path).length ≤ bytes path := by
    have low := length_le_bytes (afterRoot path)
    have sum := congrArg bytes whole
    rw [bytes_append] at sum
    omega
  have rooted : (bytes (rootOf path) ≠ 0) ↔ rootOf path ≠ [] :=
    ⟨fun positive none => positive (by rw [none]; rfl), fun some_ => (bytes_pos some_).ne'⟩
  have tracks : Tracks (rootOf path) (rootOf path) []
      { index := bytes (rootOf path), normalizedUpTo := bytes (rootOf path), seenNonDotDotSegment := bytes (rootOf path) ≠ 0 } := by
    have empty : join [] = [] := rfl
    refine .of_kept rfl (by rw [empty, append_nil]) (by simp [lead]) ?_
    simp [canDrop, rooted]
  have ended := pass_ended open_ (bytes path) (rootOf path) (afterRoot path) [] _ enough whole.symm rfl
    (slashed_afterRoot slashed) ⟨by simp, by simp⟩ tracks
  unfold passResult
  unfold Ended at ended
  split at ended
  · rename_i cuts
    rw [ended, if_pos cuts]
    rfl
  · rename_i fine
    obtain ⟨s, ok, final⟩ := ended
    rw [ok, if_neg fine]
    exact final_result slashed some_ notBare final

theorem passResult_bare (slashed : Slashed path) (bare : BareRoot path) : passResult path ≠ .ok (normalized path) := by
  have stops : ∀ fuel s, s.index = bytes path → pass path path fuel s = .ok s := by
    intro fuel s at_
    cases fuel with
    | zero => rfl
    | succ fuel => rw [pass, if_neg (by omega)]
  have result : passResult path = .ok (ensureTrailingDirectorySeparator path) := by
    unfold passResult
    rw [bare.1, stops _ _ rfl]
    rw [Outcome.monad_bind, Outcome.bind_ok, if_neg Bool.false_ne_true, if_neg (Nat.lt_irrefl _), if_pos rfl]
    rfl
  rw [result, normalized_eq_nil_root bare.1]
  exact fun same => ensureTrailing_bare bare slashed (Outcome.ok.inj same)

/-- The two normalizations agree on every path but those: roots without a slash at their end, and
texts that the pass cuts inside a character. -/
theorem normalizations_agree_iff (fileName currentDirectory : Text) :
    getNormalizedAbsolutePathInOnePass fileName currentDirectory =
        .ok (getNormalizedAbsolutePath fileName currentDirectory) ↔
      ¬BareRoot (absoluteFileName fileName currentDirectory) ∧
        ¬SlicesInside (absoluteFileName fileName currentDirectory) := by
  have slashed := slashed_absoluteFileName fileName currentDirectory
  rw [getNormalizedAbsolutePath_eq, getNormalizedAbsolutePathInOnePass_eq fileName currentDirectory _ rfl]
  generalize absoluteFileName fileName currentDirectory = path at slashed ⊢
  cases simple : simpleNormalizePath path with
  | some text =>
    have never : ¬SlicesInside path := fun slices => absurd (simple.symm.trans slices.1) (by simp)
    dsimp only
    constructor
    · intro agree
      exact ⟨fun bare => simple_bare slashed bare simple (Outcome.ok.inj agree), never⟩
    · rintro ⟨notBare, -⟩
      rw [simple_finish slashed notBare simple]
  | none =>
    have some_ : path ≠ [] := by
      rintro rfl
      cases simple
    constructor
    · intro agree
      have notBare : ¬BareRoot path := fun bare => passResult_bare slashed bare agree
      refine ⟨notBare, ?_⟩
      rintro ⟨-, cuts⟩
      rw [passResult_eq slashed some_ notBare, if_pos ((cutsInside_iff _ _).mpr cuts)] at agree
      cases agree
    · rintro ⟨notBare, fine⟩
      rw [passResult_eq slashed some_ notBare, if_neg fun cuts => fine ⟨simple, (cutsInside_iff _ _).mp cuts⟩]

/-- A `..` after a component that ends in a wide character, and a volume alone. -/
theorem normalizations_differ :
    getNormalizedAbsolutePathInOnePass "é/../a".toList [] = .panic notBoundary ∧
      getNormalizedAbsolutePath "é/../a".toList [] = "a".toList ∧
      getNormalizedAbsolutePathInOnePass "c:".toList [] = .ok "c:/".toList ∧
      getNormalizedAbsolutePath "c:".toList [] = "c:".toList := by
  decide

end TypeScriptRs.Paths
