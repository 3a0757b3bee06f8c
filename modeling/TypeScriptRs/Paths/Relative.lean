import TypeScriptRs.Lib.Machine
import TypeScriptRs.Paths.Roots

/-! Relative paths, and that they lead back to where they were taken from. -/
namespace TypeScriptRs.Paths
open Machine Utf8 List

structure ComparePathsOptions where
  useCaseSensitiveFileNames : Bool
  currentDirectory : Text

section

-- The Unicode table of lower-case characters.
variable (toLowercase : Char → Text)

def toFileNameLowerCase (fileName : Text) : Text :=
  if fileName.all (fun c => c.toNat < 128) then fileName.map Char.toLower
  else fileName.flatMap fun c => if c = Char.ofNat 0x130 then [c] else toLowercase c

def ComparePathsOptions.equalStrings (options : ComparePathsOptions) (a b : Text) : Bool :=
  if options.useCaseSensitiveFileNames then a = b else toFileNameLowerCase toLowercase a = toFileNameLowerCase toLowercase b

def eqIgnoreAsciiCase (a b : Text) : Bool := a.map Char.toLower = b.map Char.toLower

def countCommon (equal : Text → Text → Bool) : List Text → List Text → Nat
  | f :: froms, t :: tos => if equal f t then countCommon equal froms tos + 1 else 0
  | _, _ => 0

/-- How many components two paths have in common; roots are compared without case. -/
def commonComponents (equal : Text → Text → Bool) : List Text → List Text → Nat
  | f :: froms, t :: tos => if eqIgnoreAsciiCase f t then countCommon equal froms tos + 1 else 0
  | _, _ => 0

def getPathComponentsRelativeTo (source target : Text) (options : ComparePathsOptions) : List Text :=
  let fromComponents := reducePathComponents (getPathComponents source options.currentDirectory)
  let toComponents := reducePathComponents (getPathComponents target options.currentDirectory)
  let start := commonComponents (options.equalStrings toLowercase) fromComponents toComponents
  if start = 0 then toComponents
  else [] :: List.replicate (fromComponents.length - start) ['.', '.'] ++ toComponents.drop start

def getRelativePathFromDirectory (fromDirectory target : Text) (options : ComparePathsOptions) : Outcome Text :=
  if (0 < getRootLength fromDirectory) ↔ (0 < getRootLength target) then
    .ok (getPathFromPathComponents (getPathComponentsRelativeTo toLowercase fromDirectory target options))
  else .panic "paths must either both be absolute or both be relative"
end

section
variable {options : ComparePathsOptions}

theorem countCommon_key {β : Type} [DecidableEq β] (key : Text → β) (froms tos : List Text) :
    ∃ above up above' down, froms = above ++ up ∧ tos = above' ++ down ∧ above.map key = above'.map key ∧
      countCommon (fun a b => decide (key a = key b)) froms tos = above.length ∧
      (up ≠ [] → ∀ more, down.map key ≠ up.map key ++ more) := by
  induction froms generalizing tos with
  | nil => exact ⟨[], [], [], tos, rfl, rfl, rfl, by cases tos <;> rfl, fun none => absurd rfl none⟩
  | cons f froms ih =>
    cases tos with
    | nil => exact ⟨[], f :: froms, [], [], rfl, rfl, rfl, rfl, by simp⟩
    | cons t tos =>
      by_cases same : key f = key t
      · obtain ⟨above, up, above', down, fromShape, toShape, keys, count, part⟩ := ih tos
        refine ⟨f :: above, up, t :: above', down, by rw [fromShape]; rfl, by rw [toShape]; rfl, ?_, ?_, part⟩
        · rw [map_cons, map_cons, same, keys]
        · rw [countCommon, if_pos (decide_eq_true same), count]
          rfl
      · refine ⟨[], f :: froms, [], t :: tos, rfl, rfl, rfl, ?_, ?_⟩
        · rw [countCommon, if_neg (by simpa using same)]
          rfl
        · intro _ more again
          exact same (List.cons.inj again).1.symm

section
variable {toLowercase : Char → Text} {source target : Text} (fromRooted : rootOf source ≠ [])
  (toRooted : rootOf target ≠ []) (sameRoot : rootOf (normalizeSlashes source) = rootOf (normalizeSlashes target))
include fromRooted toRooted sameRoot

theorem getPathComponentsRelativeTo_key {β : Type} [DecidableEq β] {key : Text → β}
    (equal : options.equalStrings toLowercase = fun a b => decide (key a = key b)) :
    ∃ above up above' down, reducedOf (normalizeSlashes source) = above ++ up ∧
      reducedOf (normalizeSlashes target) = above' ++ down ∧ above.map key = above'.map key ∧
      (up ≠ [] → ∀ more, down.map key ≠ up.map key ++ more) ∧
      getPathComponentsRelativeTo toLowercase source target options =
        [] :: (List.replicate up.length ['.', '.'] ++ down) := by
  obtain ⟨above, up, above', down, fromShape, toShape, keys, count, part⟩ :=
    countCommon_key key (reducedOf (normalizeSlashes source)) (reducedOf (normalizeSlashes target))
  refine ⟨above, up, above', down, fromShape, toShape, keys, part, ?_⟩
  have start : commonComponents (options.equalStrings toLowercase)
      (rootOf (normalizeSlashes source) :: reducedOf (normalizeSlashes source))
      (rootOf (normalizeSlashes target) :: reducedOf (normalizeSlashes target)) = above.length + 1 := by
    rw [commonComponents, if_pos (by simp [eqIgnoreAsciiCase, sameRoot]), equal, count]
  have lengths : above.length = above'.length := by simpa using congrArg List.length keys
  unfold getPathComponentsRelativeTo
  rw [reducedComponents_rooted fromRooted, reducedComponents_rooted toRooted]
  dsimp only
  rw [start, if_neg (Nat.succ_ne_zero _), fromShape, toShape]
  simp [lengths]

theorem getPathComponentsRelativeTo_eq (sensitive : options.useCaseSensitiveFileNames = true) :
    ∃ common up down, reducedOf (normalizeSlashes source) = common ++ up ∧
      reducedOf (normalizeSlashes target) = common ++ down ∧ (up ≠ [] → ∀ more, down ≠ up ++ more) ∧
      getPathComponentsRelativeTo toLowercase source target options =
        [] :: (List.replicate up.length ['.', '.'] ++ down) := by
  have equal : options.equalStrings toLowercase = fun a b => decide (id a = id b) := by
    funext a b
    unfold ComparePathsOptions.equalStrings
    rw [if_pos sensitive]
    rfl
  obtain ⟨above, up, above', down, fromShape, toShape, keys, part, components⟩ :=
    getPathComponentsRelativeTo_key fromRooted toRooted sameRoot equal
  simp only [map_id] at keys part
  exact ⟨above, up, down, fromShape, keys ▸ toShape, part, components⟩
end

theorem foldl_regular (root : Text) (before : List Text) {after : List Text}
    (regular : ∀ c ∈ after, Proper c ∧ c ≠ ['.', '.']) : after.foldl (reduceStep root) before = before ++ after := by
  induction after generalizing before with
  | nil => simp
  | cons c after ih =>
    obtain ⟨here, notUp⟩ := regular c (by simp)
    have pushed : reduceStep root before c = before ++ [c] := by
      unfold reduceStep
      rw [if_neg (fun skip => skip.elim here.filled here.notDot), if_neg notUp]
    rw [foldl_cons, pushed, ih _ fun d listed => regular d (mem_cons_of_mem _ listed)]
    simp

theorem foldl_up (root : Text) (common up : List Text) (low : ['.', '.'] ∉ common ++ up) :
    (List.replicate up.length ['.', '.']).foldl (reduceStep root) (common ++ up) = common := by
  induction up using List.reverseRecOn with
  | nil => simp
  | append_singleton up last ih =>
    rw [← append_assoc] at low ⊢
    have popped : reduceStep root (common ++ up ++ [last]) ['.', '.'] = common ++ up := by
      have other : last ≠ ['.', '.'] := by
        rintro rfl
        exact low (by simp)
      unfold reduceStep
      rw [if_neg (by decide), if_pos rfl, if_pos, dropLast_concat]
      exact ⟨by simp, by simpa using other⟩
    rw [length_append, length_singleton, replicate_succ, foldl_cons, popped]
    exact ih fun listed => low (mem_append_left _ listed)

theorem reduceText_join (root : Text) (reduced : List Text) {components : List Text} (proper : ∀ c ∈ components, Proper c) :
    reduceText root reduced (join components) = components.foldl (reduceStep root) reduced := by
  by_cases none : components = []
  · rw [none]
    exact reduceText_nil reduced
  · have pieces : (join components).splitOn '/' = components :=
      splitOn_intercalate '/' (fun c listed => (proper c listed).free) none
    unfold reduceText
    rw [pieces]

theorem proper_dots : Proper ['.', '.'] := ⟨by simp, by decide, by unfold Slashed; decide, by decide⟩

theorem proper_steps (n : Nat) {down : List Text} (regular : ∀ c ∈ down, Proper c ∧ c ≠ ['.', '.']) :
    ∀ c ∈ List.replicate n ['.', '.'] ++ down, Proper c := by
  intro c listed
  rcases mem_append.mp listed with dots | listed
  · rw [eq_of_mem_replicate dots]
    exact proper_dots
  · exact (regular c listed).1

theorem regular_reducedOf {path : Text} (slashed : Slashed path) (rooted : rootOf path ≠ []) {common down : List Text}
    (shape : reducedOf path = common ++ down) : ∀ c ∈ down, Proper c ∧ c ≠ ['.', '.'] := by
  intro c listed
  have inside : c ∈ reducedOf path := by
    rw [shape]
    exact mem_append_right _ listed
  refine ⟨reducedOf_proper slashed c inside, ?_⟩
  rintro rfl
  exact reduceText_rooted rooted (by simp) _ inside

theorem reduceText_relative (root : Text) {common up down : List Text} (low : ['.', '.'] ∉ common ++ up)
    (regular : ∀ c ∈ down, Proper c ∧ c ≠ ['.', '.']) :
    reduceText root (common ++ up) (join (List.replicate up.length ['.', '.'] ++ down)) = common ++ down := by
  rw [reduceText_join _ _ (proper_steps _ regular), foldl_append, foldl_up root common up low,
    foldl_regular root common regular]
end

section
variable {components rest : List Text} {component : Text}

def IsDrive (component : Text) : Prop := ∃ v, isVolumeCharacter v = true ∧ component = [v, ':']

/-- Components that would be read as a root at the start of a path. -/
def RootLike (component : Text) (rest : List Text) : Prop := IsDrive component ∨ (component = ['^'] ∧ rest ≠ [])

theorem findScheme_double {text : Text} (found : (findScheme text).isSome = true) :
    ∃ front back, text = front ++ '/' :: '/' :: back := by
  obtain ⟨⟨scheme, rest⟩, some_⟩ := Option.isSome_iff_exists.mp found
  exact ⟨scheme ++ [':'], rest, by rw [findScheme_eq some_]; simp⟩

theorem findScheme_join (proper : ∀ c ∈ components, Proper c) : findScheme (join components) = none := by
  by_contra found
  obtain ⟨front, back, shape⟩ := findScheme_double (Option.isSome_iff_ne_none.mpr found)
  by_cases none : components = []
  · rw [none] at shape
    exact absurd shape.symm (by simp [join])
  have pieces : (join components).splitOn '/' = components :=
    splitOn_intercalate '/' (fun c listed => (proper c listed).free) none
  have empty : [] ∈ (join components).splitOn '/' := by
    have cut : front ++ '/' :: '/' :: back = (front ++ '/' :: []) ++ '/' :: back := by simp
    rw [shape, cut, splitOn_append_cons_self, splitOn_append_cons_self]
    simp
  rw [pieces] at empty
  exact (proper [] empty).filled rfl

theorem join_cons (component : Text) (some_ : rest ≠ []) :
    join (component :: rest) = component ++ '/' :: join rest := Split.intercalate_cons component some_

theorem urlRootOf_join (proper : ∀ c ∈ components, Proper c) : (urlRootOf (join components)).1 = [] := by
  unfold urlRootOf
  rw [findScheme_join proper]

theorem rootOf_component {tail : Text} (proper : Proper component) (noDrive : ¬IsDrive component)
    (ends : tail = [] ∨ component ≠ ['^'] ∧ ∃ more, tail = '/' :: more) (url : (urlRootOf (component ++ tail)).1 = []) :
    rootOf (component ++ tail) = [] := by
  have notSeparator : ∀ c ∈ component, ¬isAnyDirectorySeparator c = true := by
    intro c listed separator
    rcases Bool.or_eq_true_iff.mp separator with slash | backslash
    · exact proper.free (of_decide_eq_true slash ▸ listed)
    · exact proper.slashed (of_decide_eq_true backslash ▸ listed)
  unfold rootOf
  match component, proper.filled with
  | [x], _ =>
    have notHere := notSeparator x (by simp)
    rcases ends with rfl | ⟨other, more, rfl⟩
    · simp [encodedRoot, notHere]
    rw [singleton_append] at url ⊢
    rw [encodedRoot_two, if_neg notHere, if_neg fun volume => absurd volume.2 (by decide), if_neg]
    · exact url
    · rintro ⟨rfl, -⟩
      exact other rfl
  | x :: d :: component', _ =>
    rw [cons_append, cons_append] at url ⊢
    rw [encodedRoot_two, if_neg (notSeparator x (by simp))]
    split
    · rename_i volume
      obtain ⟨letter, rfl⟩ := volume
      cases component' with
      | nil => exact absurd ⟨x, letter, rfl⟩ noDrive
      | cons s component' =>
        rw [cons_append] at url ⊢
        dsimp only
        rw [if_neg (notSeparator s (by simp))]
        exact url
    · rw [if_neg]
      · exact url
      · rintro ⟨-, rfl⟩
        exact proper.free (by simp)

theorem rootOf_join {component : Text} {rest : List Text} (proper : ∀ c ∈ component :: rest, Proper c)
    (plain : ¬RootLike component rest) : rootOf (join (component :: rest)) = [] := by
  have url := urlRootOf_join proper
  have here := proper component (by simp)
  have noDrive : ¬IsDrive component := fun drive => plain (.inl drive)
  by_cases none : rest = []
  · have shape : join (component :: rest) = component ++ [] := by
      rw [none, append_nil]
      exact intercalate_singleton
    rw [shape] at url ⊢
    exact rootOf_component here noDrive (.inl rfl) url
  · rw [join_cons component none] at url ⊢
    exact rootOf_component here noDrive (.inr ⟨fun caret => plain (.inr ⟨caret, none⟩), _, rfl⟩) url

theorem afterRoot_eq {root rest : Text} (same : rootOf (root ++ rest) = root) : afterRoot (root ++ rest) = rest := by
  unfold afterRoot
  rw [same, drop_left]

theorem normalized_regular {root : Text} {components : List Text} (regular : ∀ c ∈ components, Proper c ∧ c ≠ ['.', '.'])
    (same : rootOf (root ++ join components) = root) : normalized (root ++ join components) = root ++ join components := by
  unfold normalized reducedOf
  rw [same, afterRoot_eq same, reduceText_join _ _ fun c listed => (regular c listed).1, foldl_regular _ _ regular,
    nil_append]

theorem rootOf_drive (drive : IsDrive component) : rootOf component = component := by
  obtain ⟨v, letter, rfl⟩ := drive
  unfold rootOf
  rw [encodedRoot_two, if_neg (volume_notSeparator letter), if_pos ⟨letter, rfl⟩]

theorem normalized_rootLike (regular : ∀ c ∈ rest, Proper c ∧ c ≠ ['.', '.'])
    (like : RootLike component rest) : rootOf (join (component :: rest)) ≠ [] ∧
      normalized (join (component :: rest)) = join (component :: rest) := by
  have whole : ∀ root, root ≠ [] → join (component :: rest) = root ++ join rest → rootOf (root ++ join rest) = root →
      rootOf (join (component :: rest)) ≠ [] ∧ normalized (join (component :: rest)) = join (component :: rest) := by
    intro root some_ shape same
    rw [shape, same]
    exact ⟨some_, normalized_regular regular same⟩
  rcases like with ⟨v, letter, rfl⟩ | ⟨rfl, some_⟩
  · by_cases none : rest = []
    · refine whole [v, ':'] (by simp) (by rw [none]; rfl) ?_
      have drive := rootOf_drive ⟨v, letter, rfl⟩
      have empty : join [] = [] := rfl
      rw [none, empty, append_nil, drive]
    · refine whole [v, ':', '/'] (by simp) (join_cons _ none) ?_
      have branch := encodedRoot_three v ':' '/' (join rest)
      rw [if_neg (volume_notSeparator letter), if_pos ⟨letter, rfl⟩, if_pos (by decide)] at branch
      exact congrArg Prod.fst branch
  · refine whole ['^', '/'] (by simp) (join_cons _ some_) ?_
    have branch := encodedRoot_two '^' '/' (join rest)
    exact congrArg Prod.fst branch
end

section
variable {path : Text} {components : List Text} {relative separator other : Text}

theorem slashed_join (proper : ∀ c ∈ components, Proper c) : Slashed (join components) := by
  intro listed
  rcases Split.mem_intercalate listed with slash | ⟨c, member, inside⟩
  · exact absurd slash (by decide)
  · exact (proper c member).slashed inside

theorem slashed_normalized (slashed : Slashed path) : Slashed (normalized path) := by
  intro inside
  rcases mem_append.mp inside with root | rest
  · refine slashed ?_
    rw [← rootOf_append_afterRoot path]
    exact mem_append_left _ root
  · exact slashed_join (reducedOf_proper slashed) rest

theorem head_join (proper : ∀ c ∈ components, Proper c) (some_ : components ≠ []) : (join components).head? ≠ some '/' := by
  obtain ⟨first, rest, rfl⟩ := exists_cons_of_ne_nil some_
  have here := proper first (by simp)
  obtain ⟨c, text, shape⟩ := exists_cons_of_ne_nil here.filled
  have start : ∃ tail, join (first :: rest) = c :: tail := by
    by_cases none : rest = []
    · rw [none, shape]
      exact ⟨text, intercalate_singleton⟩
    · rw [join_cons first none, shape]
      exact ⟨_, rfl⟩
  obtain ⟨tail, start⟩ := start
  rw [start]
  intro slash
  cases slash
  exact here.free (by rw [shape]; simp)

/-- The end of a path with more to come: what stands between its root and what comes. -/
def beforeMore (path : Text) : Text :=
  if hasTrailingDirectorySeparator path then afterRoot path else afterRoot path ++ ['/']

theorem combineOne_relative (some_ : path ≠ []) (filled : relative ≠ []) (slashed : Slashed relative)
    (unrooted : rootOf relative = []) : combineOne path relative = rootOf path ++ (beforeMore path ++ relative) := by
  have zero : getRootLength relative = 0 := by rw [getRootLength_eq, unrooted, bytes_nil]
  have shape := rootOf_append_afterRoot path
  unfold combineOne beforeMore
  rw [if_neg filled, normalizeSlashes_of_slashed slashed]
  rw [if_neg (fun either => either.elim some_ fun rooted => rooted zero)]
  split
  · rw [← append_assoc, shape]
  · rw [← append_assoc, ← append_assoc, shape]

theorem beforeMore_cases (slashed : Slashed path) : (beforeMore path = [] ∧ afterRoot path = []) ∨
    ∃ front, beforeMore path = front ++ ['/'] ∧ (afterRoot path = front ∨ afterRoot path = front ++ ['/']) := by
  unfold beforeMore
  split
  · rename_i trailing
    by_cases bare : afterRoot path = []
    · exact .inl ⟨bare, bare⟩
    obtain ⟨front, last, shape⟩ := (eq_nil_or_concat' (afterRoot path)).resolve_left bare
    have whole := rootOf_append_afterRoot path
    rw [← whole, shape, ← append_assoc] at trailing
    unfold hasTrailingDirectorySeparator at trailing
    rw [List.getLast?_concat] at trailing
    have slash : last = '/' := by
      rcases Bool.or_eq_true_iff.mp trailing with slash | backslash
      · exact of_decide_eq_true slash
      · have inside : '\\' ∈ path := by
          rw [← whole, shape, ← of_decide_eq_true backslash]
          simp
        exact absurd inside slashed
    rw [slash] at shape
    exact .inr ⟨front, shape, .inr shape⟩
  · exact .inr ⟨afterRoot path, rfl, .inl rfl⟩

theorem reduceText_beforeMore (slashed : Slashed path) (relative : Text) :
    reduceText (rootOf path) [] (beforeMore path ++ relative) = reduceText (rootOf path) (reducedOf path) relative := by
  unfold reducedOf
  rcases beforeMore_cases slashed with ⟨none, bare⟩ | ⟨front, shape, same | same⟩
  · rw [none, bare, reduceText_nil, nil_append]
  · rw [shape, same, append_assoc, singleton_append, reduceText_append]
  · rw [shape, same, append_assoc, singleton_append, reduceText_append, reduceText_append, reduceText_nil]

theorem separator_free {text : Text} (found : fileUrlVolumeSeparator text = some separator) : '/' ∉ separator := by
  rcases fileUrlVolumeSeparator_cases found with rfl | rfl | rfl <;> decide

theorem volume_free {v : Char} (letter : isVolumeCharacter v = true)
    (found : fileUrlVolumeSeparator separator = some separator) : '/' ∉ v :: separator := by
  intro listed
  rcases mem_cons.mp listed with rfl | inside
  · exact absurd letter (by decide)
  · exact separator_free found inside

theorem fileUrlVolume_more {front after : Text} (more : Text) (none : fileUrlVolume after = [])
    (same : after = front ∨ after = front ++ ['/']) : fileUrlVolume (front ++ '/' :: more) = [] := by
  rcases fileUrlVolume_cases (front ++ '/' :: more) with empty | ⟨v, separator, rest, letter, found, whole | slash⟩
  · exact empty
  · have inside : '/' ∈ v :: separator := by
      rw [← whole.1]
      simp
    exact absurd inside (volume_free letter found)
  have free := volume_free letter found
  have cut : front = v :: separator ∨ ∃ gap, front = v :: separator ++ '/' :: gap := by
    rcases append_eq_append_iff.mp slash.1 with ⟨gap, shape, tail⟩ | ⟨gap, shape, tail⟩
    · cases gap with
      | nil => exact .inl (by rw [shape, append_nil])
      | cons c gap =>
        cases (List.cons.inj tail).1
        exact absurd (by rw [shape]; simp) free
    cases gap with
    | nil => exact .inl (by rw [shape, append_nil])
    | cons c gap =>
      cases (List.cons.inj tail).1
      exact .inr ⟨gap, shape⟩
  rcases cut with volume | ⟨gap, volume⟩
  · rcases same with bare | slashed
    · have again := fileUrlVolumeSeparator_append found []
      rw [append_nil] at again
      rw [bare, volume] at none
      simp [fileUrlVolume, letter, again] at none
    · rw [slashed, volume, fileUrlVolume_slash letter found] at none
      cases none
  rcases same with bare | slashed
  · rw [bare, volume, fileUrlVolume_slash letter found] at none
    cases none
  have shape : after = v :: separator ++ '/' :: (gap ++ ['/']) := by
    rw [slashed, volume]
    simp
  rw [shape, fileUrlVolume_slash letter found] at none
  cases none

theorem rootOf_posix {rest : Text} (same : rootOf ('/' :: rest) = ['/']) : rest.head? ≠ some '/' := by
  intro again
  cases rest with
  | nil => cases again
  | cons d rest =>
    cases again
    unfold rootOf at same
    rw [encodedRoot_two, if_pos (by decide), if_neg (by decide)] at same
    split at same
    · cases same
    · cases same

theorem beforeMore_bare (last : (rootOf path).getLast? = some '/') (bare : afterRoot path = []) : beforeMore path = [] := by
  have whole := rootOf_append_afterRoot path
  rw [bare, append_nil] at whole
  have trailing : hasTrailingDirectorySeparator path = true := by
    rw [← whole]
    exact hasTrailingDirectorySeparator_of_getLast last
  unfold beforeMore
  rw [if_pos trailing, bare]

theorem rootOf_combined (slashed : Slashed path) (rooted : rootOf path ≠ [])
    (known : rootOf other = rootOf path) (more : afterRoot other ≠ []) (slashedOther : Slashed other)
    (first : relative.head? ≠ some '/') : rootOf (rootOf path ++ (beforeMore path ++ relative)) = rootOf path ∨
      (afterRoot path = [] ∧ rootOf path ∈ fileBases ∧ rootOf (rootOf path ++ (beforeMore path ++ relative)) =
        rootOf path ++ fileUrlVolume relative) := by
  have last : (rootOf path).getLast? = some '/' := by
    rw [← known] at rooted ⊢
    exact rootOf_getLast slashedOther rooted more
  have same : rootOf (rootOf path ++ afterRoot path) = rootOf path := by rw [rootOf_append_afterRoot]
  by_cases bare : afterRoot path = []
  · rw [beforeMore_bare last bare, nil_append]
    have stable := rootOf_extend slashedOther (known ▸ rooted) more relative fun _ => first
    rw [known] at stable
    by_cases listed : rootOf path ∈ fileBases
    · exact .inr ⟨bare, listed, by rw [stable, rootExtension, if_pos listed]⟩
    · exact .inl (by rw [stable, rootExtension, if_neg listed, append_nil])
  refine .inl ?_
  have head : rootOf path = ['/'] → (afterRoot path).head? ≠ some '/' := by
    intro posix
    rw [posix] at same
    exact rootOf_posix same
  have again := rootOf_extend slashed rooted bare (afterRoot path) head
  rw [same] at again
  have none : rootExtension (rootOf path) (afterRoot path) = [] := append_right_eq_self.mp again.symm
  rcases beforeMore_cases slashed with ⟨-, empty⟩ | ⟨front, shape, end_⟩
  · exact absurd empty bare
  have shape' : beforeMore path ++ relative = front ++ '/' :: relative := by
    rw [shape]
    simp
  have filled : rootOf path = ['/'] → (front ++ '/' :: relative).head? ≠ some '/' := by
    intro posix
    have here := head posix
    cases front with
    | nil =>
      rcases end_ with empty | slash
      · exact absurd empty bare
      · rw [slash] at here
        exact absurd rfl here
    | cons c front =>
      rcases end_ with same' | same'
      · rw [same'] at here
        exact here
      · rw [same'] at here
        exact here
  rw [shape', rootOf_extend slashed rooted bare _ filled]
  unfold rootExtension at none ⊢
  by_cases listed : rootOf path ∈ fileBases
  · rw [if_pos listed] at none ⊢
    rw [fileUrlVolume_more relative none end_, append_nil]
  · rw [if_neg listed, append_nil]

theorem normalized_volume {root : Text} (regular : ∀ c ∈ components, Proper c ∧ c ≠ ['.', '.'])
    (some_ : components ≠ []) (volume : rootOf (root ++ join components) = root ++ fileUrlVolume (join components)) :
    normalized (root ++ join components) = root ++ join components := by
  have pieces : (join components).splitOn '/' = components :=
    splitOn_intercalate '/' (fun c listed => (regular c listed).1.free) some_
  rcases fileUrlVolume_cases (join components) with none | ⟨v, separator, rest, letter, found, whole | slash⟩
  · rw [none, append_nil] at volume
    exact normalized_regular regular volume
  · rw [whole.2, whole.1] at volume
    have bare : normalized (root ++ v :: separator ++ join []) = root ++ v :: separator ++ join [] :=
      normalized_regular (by simp) (by simpa [join] using volume)
    rw [whole.1]
    simpa [join] using bare
  rw [slash.1, Split.splitOn_append_free (volume_free letter found)] at pieces
  have later : ∀ c ∈ rest.splitOn '/', Proper c ∧ c ≠ ['.', '.'] := by
    intro c listed
    refine regular c ?_
    rw [← pieces]
    exact mem_cons_of_mem _ listed
  have shape : root ++ join components = root ++ (v :: separator ++ ['/']) ++ join (rest.splitOn '/') := by
    have back : join (rest.splitOn '/') = rest := intercalate_splitOn '/'
    rw [slash.1, back]
    simp
  rw [slash.2, shape] at volume
  rw [shape]
  exact normalized_regular later volume

theorem rootOf_normalized (slashed : Slashed path) (rooted : rootOf path ≠ []) (more : afterRoot path ≠ []) :
    rootOf (rootOf path ++ join (reducedOf path)) = rootOf path ++ rootExtension (rootOf path) (join (reducedOf path)) := by
  refine rootOf_extend slashed rooted more _ fun _ => ?_
  by_cases none : reducedOf path = []
  · rw [none]
    decide
  · exact head_join (reducedOf_proper slashed) none

theorem normalized_again (slashed : Slashed path) (rooted : rootOf path ≠ []) :
    rootOf (normalized path) ≠ [] ∧ normalized (normalized path) = normalized path := by
  by_cases bare : afterRoot path = []
  · have whole := rootOf_append_afterRoot path
    have empty : join [] = [] := rfl
    rw [bare, append_nil] at whole
    have same : normalized path = path := by rw [normalized, reducedOf_eq_nil bare, empty, append_nil, whole]
    rw [same]
    exact ⟨rooted, same⟩
  have stable := rootOf_normalized slashed rooted bare
  have regular := regular_reducedOf slashed rooted (nil_append _).symm
  refine ⟨?_, ?_⟩
  · rw [normalized, stable]
    exact append_ne_nil_of_left_ne_nil rooted _
  unfold rootExtension at stable
  by_cases listed : rootOf path ∈ fileBases
  · rw [if_pos listed] at stable
    by_cases none : reducedOf path = []
    · refine normalized_regular regular ?_
      rw [stable, none]
      exact append_nil _
    · exact normalized_volume regular none stable
  · rw [if_neg listed, append_nil] at stable
    exact normalized_regular regular stable

theorem normalized_combined {common up down : List Text} (slashed : Slashed path)
    (slashedOther : Slashed other) (rooted : rootOf path ≠ []) (sameRoot : rootOf path = rootOf other)
    (source : reducedOf path = common ++ up) (target : reducedOf other = common ++ down)
    (some_ : List.replicate up.length ['.', '.'] ++ down ≠ [])
    (unrooted : rootOf (join (List.replicate up.length ['.', '.'] ++ down)) = []) :
    normalized (combineOne path (join (List.replicate up.length ['.', '.'] ++ down))) = normalized other := by
  have low : ['.', '.'] ∉ common ++ up := source ▸ reduceText_rooted rooted (by simp) _
  have regular := regular_reducedOf slashedOther (sameRoot ▸ rooted) target
  have proper := proper_steps up.length regular
  have reduced := reduceText_relative (rootOf path) low regular
  have steps := reduceText_beforeMore slashed (join (List.replicate up.length ['.', '.'] ++ down))
  rw [source, reduced] at steps
  have filled := join_ne_nil some_ proper
  have goal : normalized other = rootOf path ++ join (common ++ down) := by
    unfold normalized
    rw [target, sameRoot]
  have some' : path ≠ [] := by
    rintro rfl
    exact rooted rfl
  rw [combineOne_relative some' filled (slashed_join proper) unrooted, goal]
  have first := head_join proper some_
  obtain ⟨known, same, more, slashedKnown⟩ : ∃ known, rootOf known = rootOf path ∧ afterRoot known ≠ [] ∧ Slashed known := by
    by_cases none : reducedOf path = []
    · refine ⟨other, sameRoot.symm, ?_, slashedOther⟩
      intro bare
      have none' := reducedOf_eq_nil bare
      rw [source, append_eq_nil_iff] at none
      rw [target, append_eq_nil_iff] at none'
      exact some_ (by rw [none.2, none'.2]; rfl)
    · exact ⟨path, rfl, fun bare => none (reducedOf_eq_nil bare), slashed⟩
  rcases rootOf_combined slashed rooted same more slashedKnown first with stable | ⟨bare, -, volume⟩
  · unfold normalized
    rw [stable, reducedOf, stable, afterRoot_eq stable, steps]
  have none := reducedOf_eq_nil bare
  rw [source, append_eq_nil_iff] at none
  obtain ⟨rfl, rfl⟩ := none
  have last : (rootOf path).getLast? = some '/' := by
    rw [← same] at rooted ⊢
    exact rootOf_getLast slashedKnown rooted more
  rw [beforeMore_bare last bare, nil_append] at volume ⊢
  exact normalized_volume regular some_ volume
end

variable {toLowercase : Char → Text} {options : ComparePathsOptions} {source target : Text}

/-- The first component below the directory would be read as a root. -/
def BelowIsRootLike (source target : Text) : Prop := ∃ component rest,
  reducedOf (normalizeSlashes target) = reducedOf (normalizeSlashes source) ++ component :: rest ∧ RootLike component rest

theorem not_rootLike_dots (rest : List Text) : ¬RootLike ['.', '.'] rest := by
  rintro (⟨v, letter, same⟩ | ⟨same, -⟩)
  · cases same
  · cases same

theorem belowIsRootLike_iff {common up down : List Text} (fromShape : reducedOf (normalizeSlashes source) = common ++ up)
    (toShape : reducedOf (normalizeSlashes target) = common ++ down) (part : up ≠ [] → ∀ more, down ≠ up ++ more) :
    ¬BelowIsRootLike source target ↔
      ∀ component rest, List.replicate up.length ['.', '.'] ++ down = component :: rest → ¬RootLike component rest := by
  constructor
  · intro none component rest shape like
    cases up with
    | nil =>
      refine none ⟨component, rest, ?_, like⟩
      rw [toShape, fromShape, append_nil]
      exact congrArg (common ++ ·) shape
    | cons c up =>
      cases (List.cons.inj shape).1
      exact not_rootLike_dots rest like
  · rintro all ⟨component, rest, shape, like⟩
    rw [toShape, fromShape, append_assoc] at shape
    have below : down = up ++ component :: rest := append_cancel_left shape
    cases up with
    | nil => exact all component rest below like
    | cons c up => exact part (by simp) _ below

theorem bytes_normalized {root : Text} (rooted : root ≠ []) (common components : List Text) :
    bytes (join components) < bytes (root ++ join (common ++ components)) := by
  have positive := bytes_pos rooted
  have longer : bytes (join components) ≤ bytes (join (common ++ components)) := by
    by_cases none : common = []
    · rw [none, nil_append]
    by_cases none' : components = []
    · rw [none']
      exact Nat.zero_le _
    · have cut : join (common ++ components) = join common ++ '/' :: join components :=
        Split.intercalate_append none none'
      rw [cut, bytes_append, bytes_cons]
      omega
  rw [bytes_append]
  omega

theorem rootLike_lost {common rest : List Text} {component : Text} (rooted : rootOf (normalizeSlashes target) ≠ [])
    (toShape : reducedOf (normalizeSlashes target) = common ++ component :: rest) (like : RootLike component rest) :
    normalized (absoluteFileName (join (component :: rest)) source) ≠ normalized (normalizeSlashes target) := by
  have regular := regular_reducedOf (slashed_normalizeSlashes target) rooted toShape
  obtain ⟨rootedHere, same⟩ := normalized_rootLike (fun c listed => regular c (mem_cons_of_mem _ listed)) like
  have here : absoluteFileName (join (component :: rest)) source = join (component :: rest) := by
    unfold absoluteFileName
    rw [if_neg fun both => (bytes_pos rootedHere).ne' (getRootLength_eq _ ▸ both.1),
      normalizeSlashes_of_slashed (slashed_join fun c listed => (regular c listed).1)]
  intro equal
  have longer := bytes_normalized rooted common (component :: rest)
  rw [here, same] at equal
  rw [equal, normalized, toShape] at longer
  exact lt_irrefl _ longer

theorem absoluteFileName_target (target : Text) : absoluteFileName target [] = normalizeSlashes target := by
  exact if_neg fun both => both.2 rfl

/-- The relative path from a directory leads back, exactly when its first component would
not be read as a root of its own. -/
theorem relativePath_roundTrip (sensitive : options.useCaseSensitiveFileNames = true)
    (absoluteFrom : 0 < getRootLength source) (absoluteTo : 0 < getRootLength target)
    (sameRoot : rootOf (normalizeSlashes source) = rootOf (normalizeSlashes target)) :
    (∃ relative, getRelativePathFromDirectory toLowercase source target options = .ok relative ∧
      getNormalizedAbsolutePath relative source = getNormalizedAbsolutePath target []) ↔
      ¬BelowIsRootLike source target := by
  have fromRooted : rootOf source ≠ [] := by
    intro none
    rw [getRootLength_eq, none] at absoluteFrom
    exact absurd absoluteFrom (by decide)
  have toRooted : rootOf target ≠ [] := by
    intro none
    rw [getRootLength_eq, none] at absoluteTo
    exact absurd absoluteTo (by decide)
  have some_ : source ≠ [] := by
    rintro rfl
    exact fromRooted rfl
  have rooted := rootOf_normalizeSlashes fromRooted
  have slashed := slashed_normalizeSlashes source
  have slashedTo := slashed_normalizeSlashes target
  obtain ⟨common, up, down, fromShape, toShape, part, relative⟩ :=
    getPathComponentsRelativeTo_eq fromRooted toRooted sameRoot sensitive
  have answer : getRelativePathFromDirectory toLowercase source target options =
      .ok (join (List.replicate up.length ['.', '.'] ++ down)) := by
    unfold getRelativePathFromDirectory
    rw [if_pos (iff_of_true absoluteFrom absoluteTo), relative]
    rfl
  have regular := regular_reducedOf slashedTo (sameRoot ▸ rooted) toShape
  have plain := belowIsRootLike_iff fromShape toShape part
  rw [answer, plain]
  simp only [Outcome.ok.injEq, exists_eq_left', getNormalizedAbsolutePath_eq, absoluteFileName_target]
  cases steps : List.replicate up.length ['.', '.'] ++ down with
  | nil =>
    refine iff_of_true ?_ (by simp)
    obtain ⟨none, none'⟩ := append_eq_nil_iff.mp steps
    have top : up = [] := by simpa using none
    rw [top, append_nil] at fromShape
    rw [none', append_nil] at toShape
    have here : absoluteFileName (join []) source = normalizeSlashes source := if_pos ⟨rfl, some_⟩
    unfold normalized
    rw [here, fromShape, toShape, sameRoot]
  | cons component rest =>
    have proper : ∀ c ∈ component :: rest, Proper c := steps ▸ proper_steps up.length regular
    by_cases like : RootLike component rest
    · refine iff_of_false ?_ fun all => all component rest rfl like
      have top : up = [] := by
        cases up with
        | nil => rfl
        | cons c up =>
          cases (List.cons.inj steps).1
          exact absurd like (not_rootLike_dots rest)
      rw [top] at steps
      exact rootLike_lost (sameRoot ▸ rooted) (toShape.trans (congrArg (common ++ ·) steps)) like
    refine iff_of_true ?_ fun c r shape => by
      cases shape
      exact like
    have unrooted := rootOf_join proper like
    have here : absoluteFileName (join (component :: rest)) source =
        combineOne (normalizeSlashes source) (join (component :: rest)) := by
      unfold absoluteFileName
      rw [if_pos ⟨by rw [getRootLength_eq, unrooted, bytes_nil], some_⟩]
      rfl
    rw [here, ← steps]
    rw [← steps] at unrooted
    exact normalized_combined slashed slashedTo rooted sameRoot fromShape toShape (by rw [steps]; simp) unrooted

theorem relativePath_roundTrip_sibling :
    ∃ relative, getRelativePathFromDirectory (fun c => [c]) "/a/b".toList "/a/c/d".toList ⟨true, []⟩ = .ok relative ∧
      getNormalizedAbsolutePath relative "/a/b".toList = getNormalizedAbsolutePath "/a/c/d".toList [] := by
  refine (relativePath_roundTrip rfl (by decide) (by decide) (by decide)).mpr ?_
  rintro ⟨component, rest, shape, -⟩
  have source : reducedOf (normalizeSlashes "/a/b".toList) = [['a'], ['b']] := by decide
  have target : reducedOf (normalizeSlashes "/a/c/d".toList) = [['a'], ['c'], ['d']] := by decide
  rw [source, target] at shape
  simp at shape

/-- A directory named like a volume: the relative path to it is absolute. -/
theorem volumeBelow_lost :
    rootOf (normalizeSlashes "/a".toList) = ['/'] ∧ rootOf (normalizeSlashes "/a/c:/x".toList) = ['/'] ∧
      getRelativePathFromDirectory (fun c => [c]) "/a".toList "/a/c:/x".toList ⟨true, []⟩ = .ok "c:/x".toList ∧
      getNormalizedAbsolutePath "c:/x".toList "/a".toList ≠ getNormalizedAbsolutePath "/a/c:/x".toList [] := by
  decide

end TypeScriptRs.Paths
