import TypeScriptRs.Lib.Pieces
import TypeScriptRs.Paths.NormalForm

/-! The order of paths: as text where nothing is to be reduced, else component by component. -/
namespace TypeScriptRs.Paths
open Utf8 Comparison Pieces List
open Resolver (normalizePath)

section
variable (toLowercase : Char → Text)

def compareCharacters (c d : Char) : Ordering := compare c.toNat d.toNat

def compareText : Text → Text → Ordering := List.compareLex compareCharacters

def ComparePathsOptions.compareStrings (options : ComparePathsOptions) (a b : Text) : Ordering :=
  if options.useCaseSensitiveFileNames then compareText a b
  else compareText (toFileNameLowerCase toLowercase a) (toFileNameLowerCase toLowercase b)

def compareComponents (options : ComparePathsOptions) : List Text → List Text → Ordering
  | a :: as, b :: bs =>
    let order := options.compareStrings toLowercase a b
    if order ≠ .eq then order else compareComponents options as bs
  | as, bs => compare as.length bs.length

def comparePaths (a b : Text) (options : ComparePathsOptions) : Ordering :=
  let a := combinePaths options.currentDirectory [a]
  let b := combinePaths options.currentDirectory [b]
  if a = b then .eq
  else if a = [] then .lt
  else if b = [] then .gt
  else
    let rootOrder := compareText (toFileNameLowerCase toLowercase (rootOf a)) (toFileNameLowerCase toLowercase (rootOf b))
    if rootOrder ≠ .eq then rootOrder
    else if !hasRelativePathSegment (afterRoot a) && !hasRelativePathSegment (afterRoot b) then
      options.compareStrings toLowercase (afterRoot a) (afterRoot b)
    else
      compareComponents toLowercase options (reducePathComponents (getPathComponents a [])).tail
        (reducePathComponents (getPathComponents b [])).tail

example : comparePaths (fun c => [c]) "/A/c".toList "/a/./b".toList ⟨false, []⟩ = .gt := by decide
end

section
variable {toLowercase : Char → Text} {options : ComparePathsOptions}

theorem compareCharacters_eq_iff (c d : Char) : compareCharacters c d = .eq ↔ c = d := by
  unfold compareCharacters
  rw [compare_eq_iff_eq]
  exact ⟨fun same => Char.toNat_inj.mp same, congrArg _⟩

theorem lawful_characters : Lawful compareCharacters := lawful_compare.on Char.toNat

theorem lawful_text : Lawful compareText := lawful_characters.lex

theorem compareText_eq_iff (a b : Text) : compareText a b = .eq ↔ a = b := compareLex_eq_iff compareCharacters_eq_iff a b

abbrev ComparePathsOptions.key (options : ComparePathsOptions) (toLowercase : Char → Text) (text : Text) : Text :=
  getCanonicalFileName toLowercase text options.useCaseSensitiveFileNames

theorem compareStrings_eq (a b : Text) :
    options.compareStrings toLowercase a b = compareText (options.key toLowercase a) (options.key toLowercase b) := by
  unfold ComparePathsOptions.compareStrings ComparePathsOptions.key getCanonicalFileName
  split <;> rfl

theorem compareComponents_eq (as bs : List Text) : compareComponents toLowercase options as bs =
    List.compareLex compareText (as.map (options.key toLowercase)) (bs.map (options.key toLowercase)) := by
  induction as generalizing bs with
  | nil => cases bs <;> rfl
  | cons a as ih =>
    cases bs with
    | nil => rfl
    | cons b bs =>
      rw [compareComponents, List.map_cons, List.map_cons, List.compareLex_cons_cons, compareStrings_eq, ih]
      cases compareText (options.key toLowercase a) (options.key toLowercase b) <;> rfl

def rootKey (toLowercase : Char → Text) (path : Text) : Text := toFileNameLowerCase toLowercase (rootOf (normalizeSlashes path))

def isPlain (path : Text) : Bool := !hasRelativePathSegment (afterRoot (normalizeSlashes path))

def compareTexts (toLowercase : Char → Text) (options : ComparePathsOptions) (a b : Text) : Ordering :=
  (compareText (rootKey toLowercase a) (rootKey toLowercase b)).then
    (compareText (options.key toLowercase (afterRoot (normalizeSlashes a))) (options.key toLowercase (afterRoot (normalizeSlashes b))))

def compareReduced (toLowercase : Char → Text) (options : ComparePathsOptions) (a b : Text) : Ordering :=
  (compareText (rootKey toLowercase a) (rootKey toLowercase b)).then
    (List.compareLex compareText ((reducedOf (normalizeSlashes a)).map (options.key toLowercase))
      ((reducedOf (normalizeSlashes b)).map (options.key toLowercase)))

theorem lawful_compareTexts : Lawful (compareTexts toLowercase options) :=
  (lawful_text.on (rootKey toLowercase)).then
    (lawful_text.on fun path => options.key toLowercase (afterRoot (normalizeSlashes path)))

theorem lawful_compareReduced : Lawful (compareReduced toLowercase options) :=
  (lawful_text.on (rootKey toLowercase)).then
    (lawful_text.lex.on fun path => (reducedOf (normalizeSlashes path)).map (options.key toLowercase))

theorem comparePaths_eq {a b : Text} (rooted : rootOf a ≠ []) (rooted' : rootOf b ≠ []) : comparePaths toLowercase a b options =
      withShortcut isPlain (compareTexts toLowercase options) (compareReduced toLowercase options) a b := by
  have slashed := slashed_normalizeSlashes
  have again (path : Text) (rooted : rootOf path ≠ []) : (reducePathComponents (getPathComponents (normalizeSlashes path) [])).tail =
      reducedOf (normalizeSlashes path) := by
    rw [reducedComponents_rooted (rootOf_normalizeSlashes rooted), normalizeSlashes_of_slashed (slashed path)]
    rfl
  have some_ (path : Text) (rooted : rootOf path ≠ []) : normalizeSlashes path ≠ [] := by
    intro none
    have here := rootOf_normalizeSlashes rooted
    rw [none] at here
    exact here rfl
  unfold comparePaths
  rw [combinePaths_rooted rooted, combinePaths_rooted rooted']
  dsimp only
  rw [again a rooted, again b rooted', compareStrings_eq, compareComponents_eq]
  by_cases same : normalizeSlashes a = normalizeSlashes b
  · have equal := lawful_text.refl (rootKey toLowercase b)
    rw [if_pos same]
    unfold withShortcut compareTexts compareReduced
    have root : rootKey toLowercase a = rootKey toLowercase b := by rw [rootKey, same, rootKey]
    rw [root, equal, same, lawful_text.refl, lawful_text.lex.refl]
    exact (ite_self _).symm
  rw [if_neg same, if_neg (some_ a rooted), if_neg (some_ b rooted')]
  unfold withShortcut compareTexts compareReduced isPlain rootKey
  cases compareText (toFileNameLowerCase toLowercase (rootOf (normalizeSlashes a)))
    (toFileNameLowerCase toLowercase (rootOf (normalizeSlashes b))) with
  | eq => rfl
  | lt => exact (ite_self _).symm
  | gt => exact (ite_self _).symm
end

section
variable {path text root : Text} {components : List Text}

theorem hasRelativeSegmentFrom_clean (each : ∀ c ∈ components, '/' ∉ c ∧ c ≠ [] ∧ ¬Dots c) {last : Text} (free : '/' ∉ last)
    (notDots : ¬Dots last) (previous : Bool) : hasRelativeSegmentFrom (lead components ++ last) previous 0 0 = false := by
  have start : dotsOf [] = 0 := by simp [dotsOf]
  induction components generalizing previous with
  | nil =>
    have test := hasRelativeSegmentFrom_last free [] previous
    rw [bytes_nil, start, nil_append, decide_eq_false notDots] at test
    exact test
  | cons component components ih =>
    obtain ⟨free', filled, notDots'⟩ := each component (by simp)
    have test := hasRelativeSegmentFrom_segment free' [] (lead components ++ last) previous
    rw [bytes_nil, start, if_neg fun here => here.elim (fun both => filled both.2) notDots'] at test
    rw [lead_cons, append_assoc, cons_append, test]
    exact ih (fun c listed => each c (mem_cons_of_mem _ listed)) true

theorem hasRelativePathSegment_clean (clean : Clean text) : hasRelativePathSegment text = false := by
  obtain ⟨components, last, shape, each, free, notDots⟩ := clean
  have loop : hasRelativeSegmentFrom text false 0 0 = false := by
    rw [shape]
    exact hasRelativeSegmentFrom_clean each free notDots false
  -- What the quick tests find is found by the loop.
  have ends (segment : Text) (dots : hasRelativeSegmentFrom segment true 0 0 = true) (suffix : '/' :: segment <:+ text) :
      False := by
    obtain ⟨front, rfl⟩ := suffix
    have after := hasRelativeSegmentFrom_after front segment loop
    rw [dots] at after
    cases after
  unfold hasRelativePathSegment
  by_cases none : text = []
  · rw [if_pos none]
  rw [if_neg none, if_neg, if_neg, if_neg, loop]
  · rw [Bool.or_eq_true, isSuffixOf_iff_suffix, isSuffixOf_iff_suffix]
    rintro (one | two)
    · exact ends ['.'] (by decide) one
    · exact ends ['.', '.'] (by decide) two
  · rw [Bool.or_eq_true, isPrefixOf_iff_prefix, isPrefixOf_iff_prefix]
    rintro (⟨rest, rfl⟩ | ⟨rest, rfl⟩)
    · cases loop
    · cases loop
  · rintro (rfl | rfl)
    · exact absurd loop (by decide)
    · exact absurd loop (by decide)

section
variable (writes : Writes components text) (regular : ∀ c ∈ components, Proper c ∧ c ≠ ['.', '.'])
include writes regular

theorem Writes.clean : Clean text := by
  have each : ∀ c ∈ components, '/' ∉ c ∧ c ≠ [] ∧ ¬Dots c := by
    intro c listed
    obtain ⟨proper, notUp⟩ := regular c listed
    exact ⟨proper.free, proper.filled, fun dots => dots.elim proper.notDot notUp⟩
  rcases writes with rfl | ⟨-, rfl⟩
  · by_cases none : components = []
    · rw [none]
      exact ⟨[], [], rfl, by simp, by simp, by decide⟩
    · obtain ⟨front, last, rfl⟩ := (eq_nil_or_concat' components).resolve_left none
      obtain ⟨free, -, notDots⟩ := each last (by simp)
      exact ⟨front, last, join_concat front last, fun c listed => each c (mem_append_left _ listed), free, notDots⟩
  · exact ⟨components, [], (append_nil _).symm, each, by simp, by decide⟩

theorem Writes.pieces : Filled '/' text ∧ Pieces.pieces '/' text = components := by
  have filled : [] ∉ components := fun listed => (regular [] listed).1.filled rfl
  rcases writes with rfl | ⟨some_, rfl⟩
  · by_cases none : components = []
    · rw [none]
      exact ⟨by unfold Filled; decide, rfl⟩
    have pieces : (join components).splitOn '/' = components :=
      splitOn_intercalate '/' (fun c listed => (regular c listed).1.free) none
    refine ⟨?_, ?_⟩
    · unfold Filled
      rw [pieces]
      exact fun listed => filled (dropLast_subset _ listed)
    · unfold Pieces.pieces trim
      rw [pieces, if_neg fun last => filled (mem_of_getLast? last)]
  · have joined : (join components).splitOn '/' = components :=
      splitOn_intercalate '/' (fun c listed => (regular c listed).1.free) some_
    have pieces : (lead components).splitOn '/' = components ++ [[]] := by
      rw [lead, if_neg some_, splitOn_append_cons_self, splitOn_nil, joined]
    refine ⟨?_, ?_⟩
    · unfold Filled
      rw [pieces, dropLast_concat]
      exact filled
    · unfold Pieces.pieces trim
      rw [pieces, List.getLast?_concat, if_pos rfl, dropLast_concat]
end

theorem normalizePath_byComponents (rooted : rootOf path ≠ []) :
    normalizePath path = normalizeByComponents (normalizeSlashes path) := by
  have slashed := slashed_normalizeSlashes path
  rw [normalizePath_eq]
  cases found : simpleNormalizePath (normalizeSlashes path) with
  | none => rfl
  | some simple =>
    refine simple_components slashed found ?_
    rintro rfl
    have nothing := normalized_of_nothing slashed found
    exact absurd (append_eq_nil_iff.mp nothing).1 (rootOf_normalizeSlashes rooted)

theorem normalizePath_rooted (rooted : rootOf path ≠ []) : ∃ rest,
    normalizePath path = rootOf (normalizeSlashes path) ++ rest ∧ Writes (reducedOf (normalizeSlashes path)) rest := by
  have slashed := slashed_normalizeSlashes path
  have rooted' := rootOf_normalizeSlashes rooted
  rw [normalizePath_byComponents rooted, normalizeByComponents_eq slashed]
  generalize normalizeSlashes path = path at slashed rooted'
  by_cases added : (hasTrailingDirectorySeparator path && !hasTrailingDirectorySeparator (normalized path)) = true
  · rw [if_pos added]
    obtain ⟨trailing, open_⟩ := Bool.and_eq_true_iff.mp added
    have some_ : reducedOf path ≠ [] := by
      intro none
      have empty : join [] = [] := rfl
      have root : hasTrailingDirectorySeparator (rootOf path) = true := by
        by_cases more : afterRoot path = []
        · have cut := rootOf_append_afterRoot path
          rw [more, append_nil] at cut
          rwa [cut]
        · exact hasTrailingDirectorySeparator_of_getLast (rootOf_getLast slashed rooted' more)
      rw [normalized, none, empty, append_nil, root] at open_
      cases open_
    refine ⟨lead (reducedOf path), ?_, .inr ⟨some_, rfl⟩⟩
    rw [normalized, lead, if_neg some_, append_assoc]
  · rw [if_neg added]
    exact ⟨join (reducedOf path), rfl, .inl rfl⟩

theorem Writes.head (writes : Writes components text) (proper : ∀ c ∈ components, Proper c) : text.head? ≠ some '/' := by
  by_cases none : components = []
  · rw [none] at writes
    rcases writes with rfl | ⟨some_, -⟩
    · decide
    · exact absurd rfl some_
  have first := head_join proper none
  rcases writes with rfl | ⟨-, rfl⟩
  · exact first
  · rw [lead, if_neg none, List.head?_append_of_ne_nil _ (join_ne_nil none proper)]
    exact first

theorem rootOf_normalizePath (rooted : rootOf path ≠ []) :
    ∃ volume, rootOf (normalizePath path) = rootOf (normalizeSlashes path) ++ volume := by
  have slashed := slashed_normalizeSlashes path
  have rooted' := rootOf_normalizeSlashes rooted
  obtain ⟨rest, whole, writes⟩ := normalizePath_rooted rooted
  rw [whole]
  generalize normalizeSlashes path = path at slashed rooted' writes
  by_cases more : afterRoot path = []
  · have cut := rootOf_append_afterRoot path
    rw [more, append_nil] at cut
    rw [reducedOf_eq_nil more] at writes
    rcases writes with rfl | ⟨some_, -⟩
    · have empty : join [] = [] := rfl
      rw [empty, append_nil, cut, cut]
      exact ⟨[], (append_nil _).symm⟩
    · exact absurd rfl some_
  · exact ⟨_, rootOf_extend slashed rooted' more rest fun _ => writes.head (reducedOf_proper slashed)⟩

theorem normalizePath_below (rooted : rootOf path ≠ []) (root : rootOf (normalizePath path) = rootOf (normalizeSlashes path)) :
    Writes (reducedOf (normalizeSlashes path)) (afterRoot (normalizePath path)) ∧
      reducedOf (normalizePath path) = reducedOf (normalizeSlashes path) := by
  obtain ⟨rest, whole, writes⟩ := normalizePath_rooted rooted
  have regular := regular_reducedOf (slashed_normalizeSlashes path) (rootOf_normalizeSlashes rooted) (nil_append _).symm
  have below : afterRoot (normalizePath path) = rest := by
    rw [whole] at root ⊢
    exact afterRoot_eq root
  rw [below]
  refine ⟨writes, ?_⟩
  rw [reducedOf, below]
  exact writes.reduceText regular

theorem normalizePath_plain (rooted : rootOf path ≠ []) (plain : isPlain path = true)
    (start : (afterRoot (normalizeSlashes path)).head? ≠ some '/') : normalizePath path = normalizeSlashes path ∧
      Writes (reducedOf (normalizeSlashes path)) (afterRoot (normalizeSlashes path)) := by
  have slashed := slashed_normalizeSlashes path
  have fine : hasRelativePathSegment (afterRoot (normalizeSlashes path)) = false := by
    unfold isPlain at plain
    simpa using plain
  rw [normalizePath_byComponents rooted, normalizeByComponents_eq slashed]
  generalize normalizeSlashes path = path at slashed fine start
  obtain ⟨components, writes, regular⟩ :=
    writes_clean (clean_rest (.inl rfl) (fun _ => start) (by exact fine)) (slashed_afterRoot slashed)
  have reduced : reducedOf path = components := writes.reduceText regular
  rw [reduced]
  refine ⟨?_, writes⟩
  have cut := rootOf_append_afterRoot path
  rcases writes with rest | ⟨some_, rest⟩
  · have same : normalized path = path := by rw [normalized, reduced, ← rest, cut]
    rw [same, Bool.and_not_self, if_neg Bool.false_ne_true]
  have whole : path = normalized path ++ ['/'] := by
    conv => lhs; rw [← cut, rest, lead, if_neg some_, ← append_assoc]
    rw [normalized, reduced]
  have trailing : hasTrailingDirectorySeparator path = true := by
    rw [whole]
    exact hasTrailingDirectorySeparator_of_getLast List.getLast?_concat
  have open_ : hasTrailingDirectorySeparator (normalized path) = false := by
    rw [normalized, reduced]
    exact hasTrailingDirectorySeparator_join _ (fun c listed => (regular c listed).1) some_
  rw [trailing, open_]
  exact whole.symm
end

variable {toLowercase : Char → Text} {options : ComparePathsOptions} {a b : Text} {S : Set Text}

/-- The Unicode table of lower-case characters: ASCII letters as everywhere, no character lost, and no new separator. -/
structure LowersCase (toLowercase : Char → Text) : Prop where
  ascii : LowersAscii toLowercase
  filled : ∀ c, toLowercase c ≠ []
  free : ∀ c, c ≠ '/' → '/' ∉ toLowercase c

def ComparePathsOptions.keyOf (options : ComparePathsOptions) (toLowercase : Char → Text) (c : Char) : Text :=
  if options.useCaseSensitiveFileNames then [c] else lowerCase toLowercase c

section
variable (table : LowersCase toLowercase)
include table

theorem lowerCase_filled (c : Char) : lowerCase toLowercase c ≠ [] := by
  unfold lowerCase
  split
  · exact cons_ne_nil _ _
  · exact table.filled c

theorem key_eq (text : Text) : options.key toLowercase text = text.flatMap (options.keyOf toLowercase) := by
  unfold ComparePathsOptions.key getCanonicalFileName ComparePathsOptions.keyOf
  cases options.useCaseSensitiveFileNames with
  | true => exact (flatMap_pure_eq_map id text ▸ map_id text).symm
  | false => exact toFileNameLowerCase_eq table.ascii text

theorem keyOf_separator : options.keyOf toLowercase '/' = ['/'] := by
  unfold ComparePathsOptions.keyOf
  rw [lowerCase_ascii table.ascii (by decide)]
  exact ite_self _

theorem keyOf_filled (c : Char) : options.keyOf toLowercase c ≠ [] := by
  unfold ComparePathsOptions.keyOf
  split
  · exact cons_ne_nil _ _
  · exact lowerCase_filled table c

theorem keyOf_free (c : Char) (other : c ≠ '/') : '/' ∉ options.keyOf toLowercase c := by
  unfold ComparePathsOptions.keyOf lowerCase
  split
  · simpa using Ne.symm other
  · split
    · simpa using Ne.symm other
    · exact table.free c other
end

/-- The text below a root and the components are compared alike. -/
def SortAlike (toLowercase : Char → Text) (options : ComparePathsOptions) (a b : Text) : Prop :=
  alike compareCharacters '/' (options.key toLowercase a) (options.key toLowercase b) = true

theorem sortAlike_iff (table : LowersCase toLowercase) {text text' : Text} {components components' : List Text}
    (writes : Writes components text) (writes' : Writes components' text')
    (regular : ∀ c ∈ components, Proper c ∧ c ≠ ['.', '.']) (regular' : ∀ c ∈ components', Proper c ∧ c ≠ ['.', '.']) :
    compareText (options.key toLowercase text) (options.key toLowercase text') =
      List.compareLex compareText (components.map (options.key toLowercase)) (components'.map (options.key toLowercase)) ↔
        SortAlike toLowercase options text text' := by
  have keys (components : List Text) : components.map (options.key toLowercase) =
      components.map (List.flatMap (options.keyOf toLowercase)) := map_congr_left fun text _ => key_eq table text
  have keeps : options.keyOf toLowercase '/' = ['/'] := keyOf_separator table
  have free : ∀ c, c ≠ '/' → '/' ∉ options.keyOf toLowercase c := keyOf_free table
  have filled : ∀ c, options.keyOf toLowercase c ≠ [] := keyOf_filled table
  obtain ⟨whole, pieces⟩ := writes.pieces regular
  obtain ⟨whole', pieces'⟩ := writes'.pieces regular'
  have order := (compareLex_below compareCharacters_eq_iff (text.flatMap (options.keyOf toLowercase))
    (text'.flatMap (options.keyOf toLowercase))).2 (whole.flatMap keeps free filled) (whole'.flatMap keeps free filled)
  rw [pieces_flatMap keeps free filled, pieces_flatMap keeps free filled, pieces, pieces'] at order
  unfold SortAlike
  rw [keys, keys, key_eq table, key_eq table]
  exact eq_comm.trans order

theorem isPlain_normalizePath (rooted : rootOf a ≠ []) (root : rootOf (normalizePath a) = rootOf (normalizeSlashes a)) :
    isPlain (normalizePath a) = true := by
  have regular := regular_reducedOf (slashed_normalizeSlashes a) (rootOf_normalizeSlashes rooted) (nil_append _).symm
  have clean := (normalizePath_below rooted root).1.clean regular
  unfold isPlain
  rw [normalizeSlashes_of_slashed (normalizePath_fixed a).1, hasRelativePathSegment_clean clean]
  rfl

theorem rootKey_normalizePath (root : rootOf (normalizePath a) = rootOf (normalizeSlashes a)) :
    rootKey toLowercase (normalizePath a) = rootKey toLowercase a := by
  unfold rootKey
  rw [normalizeSlashes_of_slashed (normalizePath_fixed a).1, root]

/-- What it takes for paths to be ordered by their normal forms: normalizing keeps the root, no separator follows the root of
one that is compared as text, and one that is to be reduced sorts, as the text it becomes, as its components do. -/
structure SortsByComponents (toLowercase : Char → Text) (options : ComparePathsOptions) (S : Set Text) : Prop where
  root : ∀ a ∈ S, rootOf (normalizePath a) = rootOf (normalizeSlashes a)
  start : ∀ a ∈ S, isPlain a = true → (afterRoot (normalizeSlashes a)).head? ≠ some '/'
  alike : ∀ a ∈ S, ∀ b ∈ S, isPlain a = false → isPlain b = true → rootKey toLowercase a = rootKey toLowercase b →
    SortAlike toLowercase options (afterRoot (normalizePath a)) (afterRoot (normalizeSlashes b))

section
variable (table : LowersCase toLowercase) (rooted : rootOf a ≠ [])
include table rooted

theorem bridge_iff (rooted' : rootOf b ≠ [])
    (root : rootOf (normalizePath a) = rootOf (normalizeSlashes a)) (plain : isPlain b = true)
    (start : (afterRoot (normalizeSlashes b)).head? ≠ some '/') :
    compareTexts toLowercase options (normalizePath a) b = compareReduced toLowercase options a b ↔
      (rootKey toLowercase a = rootKey toLowercase b →
        SortAlike toLowercase options (afterRoot (normalizePath a)) (afterRoot (normalizeSlashes b))) := by
  have regular := regular_reducedOf (slashed_normalizeSlashes a) (rootOf_normalizeSlashes rooted) (nil_append _).symm
  have regular' := regular_reducedOf (slashed_normalizeSlashes b) (rootOf_normalizeSlashes rooted') (nil_append _).symm
  have order := @sortAlike_iff _ options table _ _ _ _ (normalizePath_below rooted root).1
    (normalizePath_plain rooted' plain start).2 regular regular'
  unfold compareTexts compareReduced
  rw [rootKey_normalizePath root, normalizeSlashes_of_slashed (normalizePath_fixed a).1]
  by_cases same : rootKey toLowercase a = rootKey toLowercase b
  · have equal := (compareText_eq_iff _ _).mpr same
    rw [equal]
    exact order.trans ⟨fun alike _ => alike, fun alike => alike same⟩
  · have differs : compareText (rootKey toLowercase a) (rootKey toLowercase b) ≠ .eq := mt (compareText_eq_iff _ _).mp same
    rw [then_of_ne differs, then_of_ne differs]
    exact iff_of_true rfl fun equal => absurd equal same

theorem root_of_equal (same : withShortcut isPlain (compareTexts toLowercase options) (compareReduced toLowercase options) (normalizePath a) a = .eq) :
    rootOf (normalizePath a) = rootOf (normalizeSlashes a) := by
  have equal : compareText (rootKey toLowercase (normalizePath a)) (rootKey toLowercase a) = .eq := by
    unfold withShortcut at same
    split at same
    · exact (Ordering.then_eq_eq.mp same).1
    · exact (Ordering.then_eq_eq.mp same).1
  have keys := (compareText_eq_iff _ _).mp equal
  obtain ⟨volume, shape⟩ := rootOf_normalizePath rooted
  unfold rootKey at keys
  rw [normalizeSlashes_of_slashed (normalizePath_fixed a).1, toFileNameLowerCase_eq table.ascii,
    toFileNameLowerCase_eq table.ascii, shape, flatMap_append, append_right_eq_self] at keys
  rw [shape, (flatMap_eq_nil (lowerCase_filled table) volume).mp keys, append_nil]

theorem start_of_equal (root : rootOf (normalizePath a) = rootOf (normalizeSlashes a)) (plain : isPlain a = true)
    (same : withShortcut isPlain (compareTexts toLowercase options) (compareReduced toLowercase options) (normalizePath a) a = .eq) :
    (afterRoot (normalizeSlashes a)).head? ≠ some '/' := by
  intro slash
  obtain ⟨rest, shape⟩ := List.head?_eq_some_iff.mp slash
  have head := (normalizePath_below rooted root).1.head (reducedOf_proper (slashed_normalizeSlashes a))
  unfold withShortcut at same
  rw [isPlain_normalizePath rooted root, plain] at same
  have keys := (compareText_eq_iff _ _).mp (Ordering.then_eq_eq.mp same).2
  rw [normalizeSlashes_of_slashed (normalizePath_fixed a).1, key_eq table, key_eq table, shape, flatMap_cons,
    keyOf_separator table] at keys
  cases below : afterRoot (normalizePath a) with
  | nil =>
    rw [below] at keys
    cases keys
  | cons c below' =>
    rw [below] at keys head
    have other : c ≠ '/' := fun same => head (by rw [same]; rfl)
    rw [flatMap_cons] at keys
    have free : '/' ∉ options.keyOf toLowercase c := keyOf_free table c other
    cases first : options.keyOf toLowercase c with
    | nil => exact keyOf_filled table c first
    | cons d more =>
      rw [first] at keys free
      exact free (by rw [(List.cons.inj keys).1]; simp)
end

theorem shortcut_iff (rooted : ∀ a ∈ S, rootOf a ≠ []) (root : ∀ a ∈ S, rootOf (normalizePath a) = rootOf (normalizeSlashes a))
    (start : ∀ a ∈ S, isPlain a = true → (afterRoot (normalizeSlashes a)).head? ≠ some '/') :
    OrdersNormally S normalizePath (withShortcut isPlain (compareTexts toLowercase options) (compareReduced toLowercase options)) ↔
      ∀ a ∈ S, ∀ b ∈ S, isPlain a = false → isPlain b = true →
        compareTexts toLowercase options (normalizePath a) b = compareReduced toLowercase options a b := by
  refine ordersNormally_iff lawful_compareTexts lawful_compareReduced
    (fun a a_ => isPlain_normalizePath (rooted a a_) (root a a_)) (fun a a_ plain b => ?_) (fun a a_ b => ?_)
  · have same := (normalizePath_plain (rooted a a_) plain (start a a_ plain)).1
    unfold compareTexts
    rw [rootKey_normalizePath (root a a_), same, normalizeSlashes_of_slashed (slashed_normalizeSlashes a)]
  · unfold compareReduced
    rw [rootKey_normalizePath (root a a_), normalizeSlashes_of_slashed (normalizePath_fixed a).1,
      (normalizePath_below (rooted a a_) (root a a_)).2]

/-- Absolute paths are ordered by their normal forms exactly when text and components sort them alike. -/
theorem comparePaths_ordersNormally (table : LowersCase toLowercase) (absolute : ∀ a ∈ S, 0 < getRootLength a) :
    OrdersNormally S normalizePath (comparePaths toLowercase · · options) ↔ SortsByComponents toLowercase options S := by
  have rooted : ∀ a ∈ S, rootOf a ≠ [] := by
    intro a a_ none
    have positive := absolute a a_
    rw [getRootLength_eq, none, bytes_nil] at positive
    exact Nat.lt_irrefl 0 positive
  have rooted' : ∀ a ∈ S, rootOf (normalizePath a) ≠ [] := by
    intro a a_
    obtain ⟨volume, shape⟩ := rootOf_normalizePath (rooted a a_)
    rw [shape]
    exact append_ne_nil_of_left_ne_nil (rootOf_normalizeSlashes (rooted a a_)) volume
  constructor
  · intro orders
    have orders := orders.congr (fun a a_ b b_ => comparePaths_eq (rooted a a_) (rooted b b_))
      (fun a a_ b b_ => comparePaths_eq (rooted' a a_) (rooted b b_)) (fun a a_ b b_ => comparePaths_eq (rooted a a_) (rooted' b b_))
    have equal : ∀ a ∈ S, withShortcut isPlain (compareTexts toLowercase options) (compareReduced toLowercase options)
        (normalizePath a) a = .eq := by
      intro a a_
      rw [orders.left a a_ a a_]
      unfold withShortcut
      rw [lawful_compareTexts.refl, lawful_compareReduced.refl]
      exact ite_self _
    have root : ∀ a ∈ S, rootOf (normalizePath a) = rootOf (normalizeSlashes a) :=
      fun a a_ => root_of_equal table (rooted a a_) (equal a a_)
    have start : ∀ a ∈ S, isPlain a = true → (afterRoot (normalizeSlashes a)).head? ≠ some '/' :=
      fun a a_ plain => start_of_equal table (rooted a a_) (root a a_) plain (equal a a_)
    refine ⟨root, start, fun a a_ b b_ rough plain => ?_⟩
    exact (bridge_iff table (rooted a a_) (rooted b b_) (root a a_) plain (start b b_ plain)).mp
      ((shortcut_iff rooted root start).mp orders a a_ b b_ rough plain)
  · intro sorts
    have orders := (shortcut_iff rooted sorts.root sorts.start).mpr fun a a_ b b_ rough plain =>
      (bridge_iff table (rooted a a_) (rooted b b_) (sorts.root a a_) plain (sorts.start b b_ plain)).mpr
        (sorts.alike a a_ b b_ rough plain)
    exact orders.congr (fun a a_ b b_ => (comparePaths_eq (rooted a a_) (rooted b b_)).symm)
      (fun a a_ b b_ => (comparePaths_eq (rooted' a a_) (rooted b b_)).symm)
      (fun a a_ b b_ => (comparePaths_eq (rooted a a_) (rooted' b b_)).symm)

theorem lowersCase_ascii : LowersCase fun c => [c.toLower] := by
  refine ⟨fun c _ => rfl, fun c => cons_ne_nil _ _, fun c other => ?_⟩
  rw [mem_singleton]
  exact fun slash => other ((toLower_eq_iff (by decide) c).mp slash.symm)

theorem comparePaths_ordersNormally_up :
    OrdersNormally {"/x/../b".toList, "/c".toList} normalizePath (comparePaths (fun c => [c.toLower]) · · ⟨false, []⟩) := by
  refine (comparePaths_ordersNormally lowersCase_ascii ?_).mpr ⟨?_, ?_, ?_⟩
  · rintro a (rfl | rfl) <;> decide
  · rintro a (rfl | rfl) <;> decide
  · rintro a (rfl | rfl) <;> decide
  · rintro a (rfl | rfl) b (rfl | rfl) <;> unfold SortAlike <;> decide

/-- A dot in a path moves it past another one: text puts `-` before `/`, and components do not. -/
theorem comparePaths_dots : let compared := (comparePaths (fun c => [c]) · · ⟨true, []⟩)
    compared "/a-b".toList "/a/b".toList = .lt ∧ compared "/a/b".toList "/./a/b".toList = .eq ∧
      compared "/a-b".toList "/./a/b".toList = .gt ∧ normalizePath "/./a/b".toList = "/a/b".toList := by
  decide

end TypeScriptRs.Paths
