import TypeScriptRs.Paths.Simple
import TypeScriptRs.Symlinks.KnownSymlinks

/-! Directories guessed from a file's real name and its name by a symlink. -/
namespace TypeScriptRs.Symlinks
open Utf8 Run List
open Paths hiding getPathComponents

section
def Single (text : Text) : Prop := ¬∃ front back, text = front ++ '/' :: '/' :: back

variable {text : Text} {components : List Text}

theorem Single.left {front back : Text} (single : Single (front ++ back)) : Single front := by
  rintro ⟨a, b, rfl⟩
  exact single ⟨a, b ++ back, by simp⟩

theorem single_join (regular : ∀ c ∈ components, c ≠ [] ∧ '/' ∉ c) : Single (join components) := by
  rintro ⟨front, back, shape⟩
  have some_ : components ≠ [] := by
    rintro rfl
    exact absurd shape (by simp [join])
  have pieces : (join components).splitOn '/' = components :=
    splitOn_intercalate '/' (fun c listed => (regular c listed).2) some_
  rw [shape, splitOn_append_cons_self, ← nil_append ('/' :: back), splitOn_append_cons_self] at pieces
  exact (regular [] (pieces ▸ by simp)).1 rfl

theorem single_cons (single : Single text) (head : text.head? ≠ some '/') : Single ('/' :: text) := by
  rintro ⟨front, back, shape⟩
  cases front with
  | nil =>
    rw [(List.cons.inj shape).2] at head
    exact head rfl
  | cons c front => exact single ⟨front, back, (List.cons.inj shape).2⟩

theorem single_concat (single : Single text) (last : text.getLast? ≠ some '/') : Single (text ++ ['/']) := by
  rintro ⟨front, back, shape⟩
  rcases eq_nil_or_concat' back with rfl | ⟨more, c, rfl⟩
  · have same : text = front ++ ['/'] := by
      have split_ : text ++ ['/'] = (front ++ ['/']) ++ ['/'] := by rw [shape]; simp
      exact append_cancel_right split_
    rw [same, List.getLast?_concat] at last
    exact last rfl
  · have split_ : text ++ ['/'] = (front ++ '/' :: '/' :: more) ++ [c] := by rw [shape]; simp
    exact single ⟨front, more, (append_inj' split_ rfl).1⟩

theorem single_append {front back : Text} (single : Single front) (single' : Single back) (head : back.head? ≠ some '/') :
    Single (front ++ back) := by
  rintro ⟨a, b, shape⟩
  rcases append_eq_append_iff.mp shape with ⟨c, -, inside⟩ | ⟨c, inside, rest⟩
  · exact single' ⟨c, b, inside⟩
  match c with
  | [] =>
    rw [← nil_append back, ← rest] at head
    exact head rfl
  | [d] =>
    have same : '/' :: b = back := (List.cons.inj rest).2
    rw [← same] at head
    exact head rfl
  | d :: e :: c =>
    obtain ⟨first, rest⟩ := List.cons.inj rest
    exact single ⟨a, c, by rw [inside, ← first, ← (List.cons.inj rest).1]⟩

theorem single_ensureTrailing (single : Single text) : Single (ensureTrailingDirectorySeparator text) := by
  unfold ensureTrailingDirectorySeparator
  split
  · exact single
  · rename_i open_
    exact single_concat single fun last => open_ (hasTrailingDirectorySeparator_of_getLast last)

theorem head_join' (regular : ∀ c ∈ components, c ≠ [] ∧ '/' ∉ c) : (join components).head? ≠ some '/' := by
  intro slash
  cases components with
  | nil => cases slash
  | cons component rest =>
    obtain ⟨filled, free⟩ := regular component mem_cons_self
    obtain ⟨c, more, rfl⟩ := exists_cons_of_ne_nil filled
    have head : (join ((c :: more) :: rest)).head? = some c := by
      by_cases none : rest = []
      · rw [none]
        exact congrArg List.head? intercalate_singleton
      · rw [join_cons _ none]
        rfl
    rw [head] at slash
    exact free (mem_cons.mpr (.inl (Option.some.inj slash).symm))

theorem single_fromComponents {root : Text} (first : root = ['/'] ∨ (root ≠ [] ∧ '/' ∉ root))
    (regular : ∀ c ∈ components, c ≠ [] ∧ '/' ∉ c) : Single (getPathFromComponents (root :: components)) := by
  show Single (if root = ['/'] then '/' :: join components else join (root :: components))
  split
  · exact single_cons (single_join regular) (head_join' regular)
  rename_i other
  refine single_join fun c listed => ?_
  rcases mem_cons.mp listed with rfl | listed
  · exact first.resolve_left other
  · exact regular c listed
end

section
variable {path : Text} {components : List Text}

theorem getPathComponents_regular {front back : List Text} {root : Text} (cut : getPathComponents path = root :: front ++ back) :
    (root = ['/'] ∨ (root ≠ [] ∧ '/' ∉ root)) ∧ ∀ c ∈ front, c ≠ [] ∧ '/' ∉ c := by
  have pieces (text : Text) : ∀ c ∈ (text.splitOn '/').filter (· ≠ []), c ≠ [] ∧ '/' ∉ c := by
    intro c listed
    obtain ⟨listed, filled⟩ := mem_filter.mp listed
    exact ⟨of_decide_eq_true filled, Split.not_mem_of_mem_splitOn listed⟩
  unfold getPathComponents at cut
  split at cut
  · obtain ⟨rfl, rest⟩ := List.cons.inj cut
    obtain ⟨rfl, -⟩ := append_eq_nil_iff.mp rest.symm
    exact ⟨.inl rfl, by simp⟩
  split at cut
  · rename_i rest _
    obtain ⟨rfl, rest_⟩ := List.cons.inj cut
    refine ⟨.inl rfl, fun c listed => pieces rest c ?_⟩
    rw [rest_]
    exact mem_append_left _ listed
  · have listed (c : Text) (inside : c ∈ root :: front) := pieces path c (cut ▸ mem_append_left back inside)
    exact ⟨.inr (listed root mem_cons_self), fun c inside => listed c (mem_cons_of_mem _ inside)⟩

theorem filter_splitOn_join (proper : ∀ c ∈ components, Proper c) :
    ((join components).splitOn '/').filter (· ≠ []) = components := by
  by_cases none : components = []
  · rw [none]
    rfl
  · have pieces : (join components).splitOn '/' = components :=
      splitOn_intercalate '/' (fun c listed => (proper c listed).free) none
    rw [pieces]
    exact filter_eq_self.mpr fun c listed => decide_eq_true (proper c listed).filled

theorem getPathComponents_slash (proper : ∀ c ∈ components, Proper c) :
    getPathComponents ('/' :: join components) = ['/'] :: components := by
  unfold getPathComponents
  by_cases none : components = []
  · rw [none]
    rfl
  · have other : '/' :: join components ≠ ['/'] := fun same => join_ne_nil none proper (List.cons.inj same).2
    rw [if_neg other]
    exact congrArg (['/'] :: ·) (filter_splitOn_join proper)

theorem getPathComponents_name {name : Text} (filled : name ≠ []) (free : '/' ∉ name)
    (proper : ∀ c ∈ components, Proper c) : getPathComponents (name ++ '/' :: join components) = name :: components := by
  obtain ⟨c, more, rfl⟩ := exists_cons_of_ne_nil filled
  have other : c ≠ '/' := by
    rintro rfl
    exact free mem_cons_self
  have plain : getPathComponents (c :: (more ++ '/' :: join components)) =
      ((c :: (more ++ '/' :: join components)).splitOn '/').filter (· ≠ []) := by
    unfold getPathComponents
    rw [if_neg (fun same => other (List.cons.inj same).1)]
    split
    · rename_i shape
      exact absurd (List.cons.inj shape).1 other
    · rfl
  rw [cons_append, plain, ← cons_append, Split.splitOn_append_free free, filter_cons, if_pos (by simp),
    filter_splitOn_join proper]

/-- The components of a path without slashes next to each other are its root, in short, and those after it. -/
theorem getPathComponents_single (slashed : Slashed path) (rooted : rootOf path ≠ []) (same : normalized path = path) (single : Single path) :
    (∃ root, isRootName root = true ∧ rootOf path = root ++ ['/'] ∧
      getPathComponents path = (if root = [] then ['/'] else root) :: reducedOf path) ∨
    ∃ volume, getPathComponents path = [volume] := by
  have proper := reducedOf_proper slashed
  rcases rootOf_single slashed single with none | ⟨root, name, shape⟩ | ⟨v, letter, rfl⟩
  · exact absurd none rooted
  · refine .inl ⟨root, name, shape, ?_⟩
    conv => lhs; rw [← same, normalized, shape, append_assoc, singleton_append]
    by_cases slash : root = []
    · rw [if_pos slash, slash]
      exact getPathComponents_slash proper
    · rw [if_neg slash]
      exact getPathComponents_name slash (isRootName_free name) proper
  refine .inr ⟨[v, ':'], ?_⟩
  have other : v ≠ '/' := by
    rintro rfl
    exact absurd letter (by decide)
  have free : '/' ∉ [v, ':'] := by simp [other.symm]
  unfold getPathComponents
  rw [if_neg (by simp)]
  split
  · rename_i shape
    exact absurd (List.cons.inj shape).1 other
  · rw [splitOn_eq_singleton free]
    rfl
end

section
variable {root : Text} {components below front : List Text}

/-- A directory has the root of a path, and the path has components below it. -/
structure Contains (directory path : Text) (below : List Text) : Prop where
  text : path = ensureTrailingDirectorySeparator directory ++ join below
  root : rootOf (ensureTrailingDirectorySeparator directory) = rootOf path

variable {path : Text}

section
variable (name : isRootName root = true)
include name

theorem isRootName_slashed : Slashed root := by
  unfold isRootName at name
  split at name
  · exact not_mem_nil
  · rw [of_decide_eq_true name]
    unfold Slashed
    decide
  · rename_i v c
    obtain ⟨letter, colon⟩ := Bool.and_eq_true_iff.mp name
    have other : v ≠ '\\' := by
      rintro rfl
      exact absurd letter (by decide)
    rw [of_decide_eq_true colon]
    unfold Slashed
    simp [other.symm]
  · cases name

theorem isRootName_proper (filled : root ≠ []) : Proper root := by
  refine ⟨filled, isRootName_free name, isRootName_slashed name, ?_⟩
  rintro rfl
  exact absurd name (by decide)

theorem isRootName_notSlash : root ≠ ['/'] := by
  rintro rfl
  exact absurd name (by decide)

theorem isRootName_length : (root ++ ['/']).length ≤ 3 := by
  unfold isRootName at name
  split at name
  · decide
  · simp
  · simp
  · cases name

theorem ensureTrailing_components (proper : ∀ c ∈ components, Proper c) :
    ensureTrailingDirectorySeparator (getPathFromComponents ((if root = [] then ['/'] else root) :: components)) =
      root ++ ['/'] ++ lead components := by
  unfold lead
  by_cases slash : root = []
  · rw [if_pos slash, slash]
    show ensureTrailingDirectorySeparator (['/'] ++ join components) = _
    by_cases none : components = []
    · rw [none]
      rfl
    · rw [if_neg none, ensureTrailingDirectorySeparator, hasTrailingDirectorySeparator_join ['/'] proper none,
        if_neg Bool.false_ne_true, nil_append, append_assoc]
  have regular : ∀ c ∈ root :: components, Proper c := by
    intro c listed
    rcases mem_cons.mp listed with rfl | listed
    · exact isRootName_proper name slash
    · exact proper c listed
  have trailing := hasTrailingDirectorySeparator_join [] regular (cons_ne_nil root components)
  rw [nil_append] at trailing
  have directory : getPathFromComponents (root :: components) = join (root :: components) := if_neg (isRootName_notSlash name)
  rw [if_neg slash, directory, ensureTrailingDirectorySeparator, trailing, if_neg Bool.false_ne_true]
  by_cases none : components = []
  · rw [if_pos none, none, append_nil]
    exact congrArg (· ++ ['/']) intercalate_singleton
  · rw [if_neg none, join_cons root none, append_assoc, append_assoc]
    rfl
end

theorem join_append (front : List Text) (some_ : below ≠ []) : join (front ++ below) = lead front ++ join below := by
  unfold lead
  by_cases none : front = []
  · rw [if_pos none, none]
    rfl
  · rw [if_neg none, append_assoc]
    exact Split.intercalate_append none some_

theorem head_lead (proper : ∀ c ∈ components, Proper c) : (lead components).head? ≠ some '/' := by
  unfold lead
  split
  · simp
  rename_i some_
  have head := head_join proper some_
  obtain ⟨c, more, shape⟩ := exists_cons_of_ne_nil (join_ne_nil some_ proper)
  rw [shape] at head ⊢
  exact head

theorem rootOf_short {rest other : Text} (name : isRootName root = true) (same : rootOf (root ++ ['/'] ++ rest) = root ++ ['/'])
    (more : rest ≠ []) (slashed : Slashed root) (head : other.head? ≠ some '/') :
    rootOf (root ++ ['/'] ++ other) = root ++ ['/'] := by
  have slashedRoot : Slashed (root ++ ['/']) := by
    intro inside
    rcases mem_append.mp inside with front | last
    · exact slashed front
    · exact absurd (mem_singleton.mp last) (by decide)
  rw [rootOf_append same (by simp) more slashedRoot other fun _ => head, rootExtension_short (isRootName_length name), append_nil]

/-- The components of a path without slashes next to each other are cut into a directory and what is below it. -/
theorem contains_of_single (slashed : Slashed path) (rooted : rootOf path ≠ []) (same : normalized path = path) (single : Single path) (cut : getPathComponents path = root :: front ++ below) (some_ : below ≠ []) :
    Contains (getPathFromComponents (root :: front)) path below := by
  rcases getPathComponents_single slashed rooted same single with ⟨root, isRoot, shape, components⟩ | ⟨volume, components⟩
  · rw [components, cons_append, List.cons.injEq] at cut
    obtain ⟨rfl, rest⟩ := cut
    have proper := reducedOf_proper slashed
    have ends := ensureTrailing_components isRoot fun c listed => proper c (rest ▸ mem_append_left below listed)
    have whole : path = root ++ ['/'] ++ join (reducedOf path) := by
      conv => lhs; rw [← same, normalized, shape]
    have filled : reducedOf path ≠ [] := by
      rw [rest]
      exact append_ne_nil_of_right_ne_nil front some_
    refine ⟨?_, ?_⟩
    · rw [ends, append_assoc, ← join_append front some_, ← rest]
      exact whole
    · rw [ends, shape]
      refine rootOf_short isRoot ?_ (join_ne_nil filled proper) (isRootName_slashed isRoot)
        (head_lead fun c listed => proper c (rest ▸ mem_append_left below listed))
      rw [← whole, shape]
  · rw [components, cons_append, List.cons.injEq] at cut
    exact absurd (append_eq_nil_iff.mp cut.2.symm).2 some_

theorem single_of_contains (slashed : Slashed path) (same : normalized path = path) {back : List Text} (cut : getPathComponents path = root :: front ++ back)
    (contains_ : Contains (getPathFromComponents (root :: front)) path below) : Single path := by
  obtain ⟨first, regular⟩ := getPathComponents_regular cut
  have directory := single_ensureTrailing (single_fromComponents first regular)
  rw [← rootOf_append_afterRoot (ensureTrailingDirectorySeparator _), contains_.root] at directory
  rw [← same, normalized]
  have proper := reducedOf_proper slashed
  have regular' : ∀ c ∈ reducedOf path, c ≠ [] ∧ '/' ∉ c := fun c listed => ⟨(proper c listed).filled, (proper c listed).free⟩
  exact single_append directory.left (single_join regular') (head_join' regular')
end

variable {toLowercase : Char → Text} {cache : KnownSymlinks}

theorem popCommon_spec (toLowercase : Char → Text) (cache : KnownSymlinks) (as bs : List Text) (isDirectory : Bool) :
    ∃ popped popped', as = popped ++ (cache.popCommon toLowercase as bs isDirectory).1.1 ∧
      bs = popped' ++ (cache.popCommon toLowercase as bs isDirectory).1.2 ∧
      popped.map (cache.canonical toLowercase) = popped'.map (cache.canonical toLowercase) ∧
      ((cache.popCommon toLowercase as bs isDirectory).2 = isDirectory ∨ popped ≠ []) := by
  fun_induction KnownSymlinks.popCommon toLowercase cache as bs isDirectory with
  | case1 a a' as b b' bs isDirectory pops ih =>
    obtain ⟨popped, popped', left, right, same, -⟩ := ih
    have equal : cache.canonical toLowercase a = cache.canonical toLowercase b :=
      of_decide_eq_true (Bool.and_eq_true_iff.mp pops).2
    refine ⟨a :: popped, b :: popped', congrArg (a :: ·) left, congrArg (b :: ·) right, ?_, .inr (cons_ne_nil a popped)⟩
    rw [map_cons, map_cons, equal, same]
  | case2 a a' as b b' bs isDirectory stays => exact ⟨[], [], rfl, rfl, rfl, .inl rfl⟩
  | case3 as bs isDirectory short => exact ⟨[], [], rfl, rfl, rfl, .inl rfl⟩

theorem popCommon_ne_nil (toLowercase : Char → Text) (cache : KnownSymlinks) {as bs : List Text} (isDirectory : Bool) (filled : as ≠ []) (filled' : bs ≠ []) :
    (cache.popCommon toLowercase as bs isDirectory).1.1 ≠ [] ∧ (cache.popCommon toLowercase as bs isDirectory).1.2 ≠ [] := by
  fun_induction KnownSymlinks.popCommon toLowercase cache as bs isDirectory with
  | case1 a a' as b b' bs isDirectory pops ih => exact ih (cons_ne_nil a' as) (cons_ne_nil b' bs)
  | case2 a a' as b b' bs isDirectory stays => exact ⟨filled, filled'⟩
  | case3 as bs isDirectory short => exact ⟨filled, filled'⟩

theorem guessDirectorySymlink_spec {a b cwd : Text} {pair : Text × Text} (guessed : cache.guessDirectorySymlink toLowercase a b cwd = pair)
    (some_ : pair ≠ ([], [])) : ∃ root front below root' front' below', below ≠ [] ∧ below' ≠ [] ∧
      getPathComponents (getNormalizedAbsolutePath a cwd) = root :: front ++ below ∧
      getPathComponents (getNormalizedAbsolutePath b cwd) = root' :: front' ++ below' ∧
      pair = (getPathFromComponents (root :: front), getPathFromComponents (root' :: front')) ∧
      below.map (cache.canonical toLowercase) = below'.map (cache.canonical toLowercase) := by
  unfold KnownSymlinks.guessDirectorySymlink at guessed
  dsimp only at guessed
  obtain ⟨popped, popped', left, right, same, turns⟩ := popCommon_spec toLowercase cache
    (getPathComponents (getNormalizedAbsolutePath a cwd)).reverse (getPathComponents (getNormalizedAbsolutePath b cwd)).reverse false
  generalize popping : cache.popCommon toLowercase (getPathComponents (getNormalizedAbsolutePath a cwd)).reverse
    (getPathComponents (getNormalizedAbsolutePath b cwd)).reverse false = result at guessed left right turns
  obtain ⟨⟨as, bs⟩, isDirectory⟩ := result
  cases isDirectory with
  | false => exact absurd guessed.symm some_
  | true =>
    have filled : popped ≠ [] := turns.resolve_left Bool.noConfusion
    have filled' : popped' ≠ [] := by
      rintro rfl
      exact filled (map_eq_nil_iff.mp same)
    have kept := popCommon_ne_nil toLowercase cache false
      (left ▸ append_ne_nil_of_left_ne_nil filled as) (right ▸ append_ne_nil_of_left_ne_nil filled' bs)
    rw [popping] at kept
    obtain ⟨root, front, shape⟩ := exists_cons_of_ne_nil (mt reverse_eq_nil_iff.mp kept.1)
    obtain ⟨root', front', shape'⟩ := exists_cons_of_ne_nil (mt reverse_eq_nil_iff.mp kept.2)
    refine ⟨root, front, popped.reverse, root', front', popped'.reverse, mt reverse_eq_nil_iff.mp filled,
      mt reverse_eq_nil_iff.mp filled', ?_, ?_, ?_, ?_⟩
    · rw [← shape, ← reverse_append, ← left, reverse_reverse]
    · rw [← shape', ← reverse_append, ← right, reverse_reverse]
    · rw [← shape, ← shape']
      exact guessed.symm
    · rw [map_reverse, map_reverse, same]

/-- The directories of a pair contain the two files, at the same components below them. -/
def PairOf (toLowercase : Char → Text) (cache : KnownSymlinks) (real symlink : Text) (pair : Text × Text) : Prop :=
  ∃ below below', Contains pair.1 real below ∧ Contains pair.2 symlink below' ∧
    below.map (cache.canonical toLowercase) = below'.map (cache.canonical toLowercase)

/-- A pair that is guessed leads from the symlink to the real file if and only if neither name has slashes next to each other. -/
theorem pairOf_iff {real symlink cwd : Text} {pair : Text × Text} (absolute : rootOf (absoluteFileName real cwd) ≠ [])
    (absolute' : rootOf (absoluteFileName symlink cwd) ≠ [])
    (guessed : cache.guessDirectorySymlink toLowercase real symlink cwd = pair) (some_ : pair ≠ ([], [])) :
    PairOf toLowercase cache (getNormalizedAbsolutePath real cwd) (getNormalizedAbsolutePath symlink cwd) pair ↔
      Single (getNormalizedAbsolutePath real cwd) ∧ Single (getNormalizedAbsolutePath symlink cwd) := by
  obtain ⟨root, front, below, root', front', below', filled, filled', cut, cut', rfl, equal⟩ := guessDirectorySymlink_spec guessed some_
  have slashed := slashed_absoluteFileName real cwd
  have slashed' := slashed_absoluteFileName symlink cwd
  obtain ⟨rooted, same⟩ := normalized_again slashed absolute
  obtain ⟨rooted', same'⟩ := normalized_again slashed' absolute'
  have normal := slashed_normalized slashed
  have normal' := slashed_normalized slashed'
  rw [getNormalizedAbsolutePath_eq] at cut cut' ⊢
  rw [getNormalizedAbsolutePath_eq symlink]
  constructor
  · rintro ⟨_, _, contains_, contains', -⟩
    exact ⟨single_of_contains normal same cut contains_, single_of_contains normal' same' cut' contains'⟩
  · rintro ⟨single, single'⟩
    exact ⟨below, below', contains_of_single normal rooted same single cut filled,
      contains_of_single normal' rooted' same' single' cut' filled', equal⟩

/-- The indexes agree with the tables at every moment of a run exactly if no call changes what is known, and a
guessed pair is right exactly if neither name has slashes next to each other. -/
theorem knownSymlinks_spec (toLowercase : Char → Text) (currentDirectory : Text) (useCaseSensitiveFileNames : Bool)
    (calls : List KnownSymlinks.Call) :
    ((∀ n, KnownSymlinks.AllIndexed toLowercase (run (KnownSymlinks.step toLowercase)
        (KnownSymlinks.newKnownSymlink currentDirectory useCaseSensitiveFileNames) (calls.take n)).1) ↔
      Along (KnownSymlinks.step toLowercase) (KnownSymlinks.Repeats toLowercase)
        (KnownSymlinks.newKnownSymlink currentDirectory useCaseSensitiveFileNames) calls) ∧
    ∀ (cache : KnownSymlinks) (real symlink cwd : Text) (pair : Text × Text), rootOf (absoluteFileName real cwd) ≠ [] →
      rootOf (absoluteFileName symlink cwd) ≠ [] → cache.guessDirectorySymlink toLowercase real symlink cwd = pair → pair ≠ ([], []) →
        (PairOf toLowercase cache (getNormalizedAbsolutePath real cwd) (getNormalizedAbsolutePath symlink cwd) pair ↔
          Single (getNormalizedAbsolutePath real cwd) ∧ Single (getNormalizedAbsolutePath symlink cwd)) :=
  ⟨KnownSymlinks.indexed_iff_along toLowercase currentDirectory useCaseSensitiveFileNames calls,
    fun _ _ _ _ _ absolute absolute' guessed some_ => pairOf_iff absolute absolute' guessed some_⟩

theorem knownSymlinks_spec_resolution : ∀ n, KnownSymlinks.AllIndexed (fun c => [c])
    (run (KnownSymlinks.step fun c => [c]) (KnownSymlinks.newKnownSymlink ['/'] true)
      (List.take n [.processResolution "/s/f.ts".toList "/r/f.ts".toList])).1 :=
  (knownSymlinks_spec (fun c => [c]) ['/'] true [.processResolution "/s/f.ts".toList "/r/f.ts".toList]).1.mpr
    ⟨.inr (.inr ⟨fun _ => rfl, fun _ _ _ _ => rfl⟩), trivial⟩

/-- A file symlink that is resolved to one real path and then to another. -/
def movedCalls : List KnownSymlinks.Call :=
  [.processResolution "/s/f.ts".toList "/r/f.ts".toList, .processResolution "/s/f.ts".toList "/q/f.ts".toList]

/-- The index keeps the first real path. The directories on a server lose a slash of their root. -/
theorem movedSymlink_stale :
    ¬ KnownSymlinks.AllIndexed (fun c => [c]) (run (KnownSymlinks.step fun c => [c]) (KnownSymlinks.newKnownSymlink ['/'] true) movedCalls).1 ∧
    (KnownSymlinks.newKnownSymlink ['/'] true).guessDirectorySymlink (fun c => [c]) "//server/real/f.ts".toList
      "//server/link/f.ts".toList ['/'] = ("/server/real".toList, "/server/link".toList) := by
  refine ⟨fun indexed => ?_, by decide⟩
  have listed := (indexed.1 "/s/f.ts".toList "/r/f.ts".toList).mp ⟨"/s/f.ts".toList, by decide, by decide⟩
  exact absurd listed (by decide)

end TypeScriptRs.Symlinks
