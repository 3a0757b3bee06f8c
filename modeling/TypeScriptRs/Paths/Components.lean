import TypeScriptRs.Paths.Path

/-! The root and the components that the normalization keeps; directories and base names. -/
namespace TypeScriptRs.Paths
open Utf8 List

section
variable {path : Text}

theorem findScheme_eq {scheme rest : Text} (found : findScheme path = some (scheme, rest)) :
    path = scheme ++ "://".toList ++ rest := by
  fun_induction findScheme path generalizing scheme with
  | case1 after =>
    cases found
    rfl
  | case2 c after other ih =>
    obtain ⟨⟨scheme', rest'⟩, later, same⟩ := Option.map_eq_some_iff.mp found
    cases same
    rw [ih later]
    rfl
  | case3 => cases found

theorem fileUrlVolumeSeparator_eq {text separator : Text} (found : fileUrlVolumeSeparator text = some separator) :
    text = separator ++ text.drop separator.length := by
  unfold fileUrlVolumeSeparator at found
  split at found
  all_goals first
    | (cases found; rfl)
    | cases found

theorem fileUrlVolume_prefix (after : Text) : ∃ rest, after = fileUrlVolume after ++ rest := by
  unfold fileUrlVolume
  split
  · exact ⟨[], rfl⟩
  rename_i v more
  split
  · cases found : fileUrlVolumeSeparator more with
    | none => exact ⟨v :: more, rfl⟩
    | some separator =>
      have shape := fileUrlVolumeSeparator_eq found
      dsimp only
      split
      · rename_i none
        rw [none, append_nil] at shape
        exact ⟨[], by rw [shape]; simp⟩
      · rename_i rest slash
        rw [slash] at shape
        exact ⟨rest, by rw [shape]; simp⟩
      · exact ⟨v :: more, rfl⟩
  · exact ⟨v :: more, rfl⟩

theorem urlRoot_prefix (scheme rest : Text) : ∃ more, scheme ++ "://".toList ++ rest = urlRoot scheme rest ++ more := by
  unfold urlRoot
  split
  · rename_i slash
    have cut := Split.takeWhile_cut slash
    obtain ⟨more, volume⟩ := fileUrlVolume_prefix (rest.dropWhile (· ≠ '/')).tail
    dsimp only
    split
    · refine ⟨more, ?_⟩
      conv => lhs; rw [cut, volume]
      simp
    · refine ⟨(rest.dropWhile (· ≠ '/')).tail, ?_⟩
      conv => lhs; rw [cut]
      simp
  · exact ⟨[], by simp⟩

theorem urlRootOf_prefix (path : Text) : ∃ more, path = (urlRootOf path).1 ++ more := by
  unfold urlRootOf
  split
  · rename_i scheme rest found
    obtain ⟨more, shape⟩ := urlRoot_prefix scheme rest
    exact ⟨more, by rw [findScheme_eq found, shape]⟩
  · exact ⟨path, rfl⟩

theorem encodedRoot_prefix (path : Text) : ∃ more, path = (encodedRoot path).1 ++ more := by
  unfold encodedRoot
  split
  · exact ⟨[], rfl⟩
  · split
    · exact ⟨[], rfl⟩
    · exact ⟨_, rfl⟩
  rename_i c d rest
  split
  · split
    · exact ⟨d :: rest, rfl⟩
    split
    · rename_i listed
      refine ⟨(rest.dropWhile (· ≠ c)).tail, ?_⟩
      have cut := Split.takeWhile_cut listed
      simpa using cut
    · exact ⟨[], by simp⟩
  split
  · split
    · exact ⟨[], rfl⟩
    · rename_i s more
      split
      · exact ⟨more, rfl⟩
      · exact urlRootOf_prefix _
  · split
    · exact ⟨rest, rfl⟩
    · exact urlRootOf_prefix _

theorem rootOf_append_afterRoot (path : Text) : rootOf path ++ afterRoot path = path := by
  obtain ⟨more, shape⟩ := encodedRoot_prefix path
  have rest : afterRoot path = more :=
    (congrArg (List.drop (rootOf path).length) shape).trans drop_left
  rw [rest]
  exact shape.symm

/-- A text without the slashes that paths are normalized from. -/
def Slashed (path : Text) : Prop := '\\' ∉ path

theorem Slashed.slash (slashed : Slashed path) {c : Char} (listed : c ∈ path)
    (separator : isAnyDirectorySeparator c = true) : c = '/' := by
  rcases Bool.or_eq_true_iff.mp separator with slash | backslash
  · exact of_decide_eq_true slash
  · exact absurd (of_decide_eq_true backslash ▸ listed) slashed

theorem slashed_rootOf (slashed : Slashed path) : Slashed (rootOf path) := by
  intro listed
  refine slashed ?_
  rw [← rootOf_append_afterRoot path]
  exact mem_append_left _ listed

theorem volume_notSeparator {v : Char} (letter : isVolumeCharacter v = true) : ¬isAnyDirectorySeparator v = true := by
  intro separator
  rcases Bool.or_eq_true_iff.mp separator with slash | backslash
  · exact absurd (of_decide_eq_true slash ▸ letter) (by decide)
  · exact absurd (of_decide_eq_true backslash ▸ letter) (by decide)

theorem slashed_normalizeSlashes (path : Text) : Slashed (normalizeSlashes path) := by
  intro listed
  obtain ⟨c, -, same⟩ := List.mem_map.mp listed
  split at same
  · exact absurd same (by decide)
  · rename_i other
    exact other same

theorem normalizeSlashes_of_slashed (slashed : Slashed path) : normalizeSlashes path = path := by
  conv => rhs; rw [← List.map_id path]
  refine List.map_congr_left ?_
  intro c listed
  refine if_neg ?_
  rintro rfl
  exact slashed listed

theorem fileUrlVolume_trailing (after : Text) :
    fileUrlVolume after = [] ∨ fileUrlVolume after = after ∨ (fileUrlVolume after).getLast? = some '/' := by
  unfold fileUrlVolume
  split
  · exact .inl rfl
  rename_i v more
  split
  · cases found : fileUrlVolumeSeparator more with
    | none => exact .inl rfl
    | some separator =>
      have shape := fileUrlVolumeSeparator_eq found
      dsimp only
      split
      · rename_i none
        rw [none, append_nil] at shape
        exact .inr (.inl (by rw [shape]))
      · exact .inr (.inr List.getLast?_concat)
      · exact .inl rfl
  · exact .inl rfl

theorem urlRoot_trailing (scheme rest : Text) : urlRoot scheme rest = scheme ++ "://".toList ++ rest ∨
    (urlRoot scheme rest).getLast? = some '/' := by
  unfold urlRoot
  split
  · rename_i slash
    have cut := Split.takeWhile_cut slash
    dsimp only
    split
    · rcases fileUrlVolume_trailing (rest.dropWhile (· ≠ '/')).tail with none | whole | trailing
      · exact .inr (by rw [none, append_nil]; exact List.getLast?_concat)
      · refine .inl ?_
        rw [whole]
        conv => rhs; rw [cut]
        simp
      · exact .inr (by rw [List.getLast?_append, trailing]; rfl)
    · exact .inr (by rw [append_nil]; exact List.getLast?_concat)
  · exact .inl rfl

theorem rootOf_trailing (slashed : Slashed path) : rootOf path = [] ∨ rootOf path = path ∨ (rootOf path).getLast? = some '/' := by
  have url : (urlRootOf path).1 = [] ∨ (urlRootOf path).1 = path ∨ (urlRootOf path).1.getLast? = some '/' := by
    unfold urlRootOf
    split
    · rename_i scheme rest found
      rw [findScheme_eq found]
      exact .inr (urlRoot_trailing scheme rest)
    · exact .inl rfl
  have separator : ∀ c ∈ path, isAnyDirectorySeparator c = true → c = '/' := fun c listed => slashed.slash listed
  unfold rootOf encodedRoot
  split
  · exact .inl rfl
  · split
    · exact .inr (.inl rfl)
    · exact .inl rfl
  rename_i c d rest
  split
  · rename_i sep
    have slash := separator c (by simp) sep
    split
    · exact .inr (.inr (by simp [slash]))
    · split
      · exact .inr (.inr (by rw [slash]; exact List.getLast?_concat))
      · exact .inr (.inl rfl)
  split
  · split
    · exact .inr (.inl rfl)
    rename_i s more
    split
    · rename_i sep
      exact .inr (.inr (by simp [separator s (by simp) sep]))
    · exact url
  · split
    · rename_i untitled
      exact .inr (.inr (by simp [untitled.2]))
    · exact url
end

section
variable {root : Text} {text path : Text} {reduced : List Text}

def reduceText (root : Text) (reduced : List Text) (text : Text) : List Text :=
  (text.splitOn '/').foldl (reduceStep root) reduced

theorem reduceText_free (free : '/' ∉ text) (reduced : List Text) :
    reduceText root reduced text = reduceStep root reduced text := by
  unfold reduceText
  rw [splitOn_eq_singleton free]
  rfl

@[simp] theorem reduceText_nil (reduced : List Text) : reduceText root reduced [] = reduced :=
  reduceText_free (by simp) reduced

theorem reduceText_append (reduced : List Text) (front back : Text) :
    reduceText root reduced (front ++ '/' :: back) = reduceText root (reduceText root reduced front) back := by
  unfold reduceText
  rw [splitOn_append_cons_self, foldl_append]

@[simp] theorem reduceText_slash (reduced : List Text) (text : Text) :
    reduceText root reduced ('/' :: text) = reduceText root reduced text := by
  have cut : reduceText root reduced ([] ++ '/' :: text) = _ := reduceText_append reduced [] text
  rwa [reduceText_nil] at cut

theorem reduceText_dropWhile (reduced : List Text) (text : Text) :
    reduceText root reduced (text.dropWhile (· = '/')) = reduceText root reduced text := by
  induction text with
  | nil => rfl
  | cons c text ih =>
    by_cases slash : c = '/'
    · rw [dropWhile_cons_of_pos (by simp [slash]), ih, slash, reduceText_slash]
    · rw [dropWhile_cons_of_neg (by simp [slash])]

theorem normalizeRest_step (fuel : Nat) (rest : Text) (components : List Text) : normalizeRest root (fuel + 1) rest components =
      if rest.dropWhile (· = '/') = [] then components
      else normalizeRest root fuel ((rest.dropWhile (· = '/')).dropWhile (· ≠ '/'))
        (reduceStep root components ((rest.dropWhile (· = '/')).takeWhile (· ≠ '/'))) := by
  rw [normalizeRest]
  split
  · rfl
  generalize (rest.dropWhile (· = '/')).takeWhile (· ≠ '/') = component
  unfold reduceStep
  by_cases skip : component = [] ∨ component = ['.']
  · rw [if_pos skip, if_pos skip]
  rw [if_neg skip, if_neg skip]
  by_cases up : component = ['.', '.']
  · by_cases pop : components ≠ [] ∧ components.getLast? ≠ some ['.', '.']
    · rw [if_pos ⟨up, pop⟩, if_pos up, if_pos pop]
    · rw [if_neg (fun both => pop both.2), if_pos up, if_neg pop]
      by_cases top : components = [] ∧ root ≠ []
      · rw [if_pos ⟨up, top⟩, if_pos top]
      · rw [if_neg (fun both => top both.2), if_neg top]
  · rw [if_neg (fun both => up both.1), if_neg (fun both => up both.1), if_neg up]

theorem normalizeRest_eq : ∀ fuel (rest : Text) (components : List Text), rest.length ≤ fuel →
    normalizeRest root fuel rest components = reduceText root components rest := by
  intro fuel
  induction fuel with
  | zero =>
    intro rest components none
    cases length_eq_zero_iff.mp (Nat.le_zero.mp none)
    rw [normalizeRest, reduceText_nil]
  | succ fuel ih =>
    intro rest components enough
    have shorter := length_dropWhile_le (· = '/') rest
    have first : ∀ c text, rest.dropWhile (· = '/') = c :: text → c ≠ '/' := by
      intro c text shape
      have head := List.head?_dropWhile_not (· = '/') rest
      rw [shape] at head
      simpa using head
    rw [normalizeRest_step, ← reduceText_dropWhile]
    generalize rest.dropWhile (· = '/') = text at shorter first ⊢
    split
    · rename_i none
      rw [none, reduceText_nil]
    by_cases slash : '/' ∈ text
    · obtain ⟨component, after, free, rfl⟩ : ∃ component after, '/' ∉ component ∧ text = component ++ '/' :: after :=
        ⟨_, _, Split.not_mem_takeWhile '/' text, Split.takeWhile_cut slash⟩
      have filled : component ≠ [] := by
        rintro rfl
        exact first '/' after rfl rfl
      have positive := length_pos_of_ne_nil filled
      rw [List.length_append, length_cons] at shorter
      rw [Split.takeWhile_append_cons free, Split.dropWhile_append_cons free,
        ih ('/' :: after) _ (by rw [length_cons]; omega), reduceText_slash, reduceText_append, reduceText_free free]
    · have all : ∀ c ∈ text, decide (c ≠ '/') = true := by
        intro c listed
        refine decide_eq_true ?_
        rintro rfl
        exact slash listed
      rw [takeWhile_eq_self_iff.mpr all, dropWhile_eq_nil_iff.mpr all, ih [] _ (by simp), reduceText_nil,
        reduceText_free slash]

def reducedOf (path : Text) : List Text := reduceText (rootOf path) [] (afterRoot path)

theorem getNormalizedPathComponentsFromCombined_eq (path : Text) :
    getNormalizedPathComponentsFromCombined path = rootOf path :: reducedOf path := by
  unfold getNormalizedPathComponentsFromCombined
  have shorter : (afterRoot path).length ≤ path.length := by
    unfold afterRoot
    simp
  rw [normalizeRest_eq _ _ _ shorter]
  rfl

theorem reducePathComponents_pathComponents (path : Text) :
    reducePathComponents (pathComponents path) = rootOf path :: reducedOf path := by
  unfold reducePathComponents pathComponents reducedOf reduceText
  dsimp only
  split
  · rename_i last
    have shape := dropLast_append_getLast? [] last
    conv => rhs; rw [← shape]
    rw [foldl_append]
    rfl
  · rfl

structure Proper (component : Text) : Prop where
  filled : component ≠ []
  free : '/' ∉ component
  slashed : Slashed component
  notDot : component ≠ ['.']

theorem reduceStep_proper (proper : ∀ c ∈ reduced, Proper c) {component : Text}
    (free : '/' ∉ component) (slashed : Slashed component) : ∀ c ∈ reduceStep root reduced component, Proper c := by
  have dropped : ∀ c ∈ reduced.dropLast, Proper c := fun c listed => proper c (dropLast_subset _ listed)
  have pushed : ¬(component = [] ∨ component = ['.']) → ∀ c ∈ reduced ++ [component], Proper c := by
    intro keep c listed
    rcases mem_append.mp listed with old | new
    · exact proper c old
    · cases mem_singleton.mp new
      exact ⟨fun none => keep (.inl none), free, slashed, fun dot => keep (.inr dot)⟩
  unfold reduceStep
  split
  · exact proper
  rename_i keep
  split
  · split
    · exact dropped
    · split
      · exact proper
      · exact pushed keep
  · exact pushed keep

theorem foldl_reduceStep_proper (components : List Text) (proper : ∀ c ∈ reduced, Proper c)
    (free : ∀ c ∈ components, '/' ∉ c ∧ Slashed c) : ∀ c ∈ components.foldl (reduceStep root) reduced, Proper c := by
  induction components generalizing reduced with
  | nil => exact proper
  | cons component components ih =>
    have here := free component (by simp)
    exact ih (reduceStep_proper proper here.1 here.2) fun c listed => free c (mem_cons_of_mem _ listed)

theorem slashed_afterRoot (slashed : Slashed path) : Slashed (afterRoot path) :=
  fun listed => slashed (mem_of_mem_drop listed)

theorem reduceText_proper (slashed : Slashed text) (proper : ∀ c ∈ reduced, Proper c) :
    ∀ c ∈ reduceText root reduced text, Proper c := by
  refine foldl_reduceStep_proper _ proper ?_
  intro c listed
  exact ⟨Split.not_mem_of_mem_splitOn listed, fun inside => slashed (Split.mem_of_mem_splitOn listed inside)⟩

theorem reducedOf_proper (slashed : Slashed path) : ∀ c ∈ reducedOf path, Proper c :=
  reduceText_proper (slashed_afterRoot slashed) (by simp)

theorem reduceStep_rooted (rooted : root ≠ []) (down : ['.', '.'] ∉ reduced) (component : Text) :
    ['.', '.'] ∉ reduceStep root reduced component := by
  unfold reduceStep
  split
  · exact down
  split
  · split
    · exact fun listed => down (dropLast_subset _ listed)
    rename_i up pop
    rw [if_pos]
    · exact down
    · refine ⟨?_, rooted⟩
      by_contra some_
      exact pop ⟨some_, fun last => down (mem_of_getLast? last)⟩
  · rename_i other
    intro listed
    rcases mem_append.mp listed with old | new
    · exact down old
    · exact other (mem_singleton.mp new).symm

theorem reduceText_rooted (rooted : root ≠ []) (down : ['.', '.'] ∉ reduced) (text : Text) :
    ['.', '.'] ∉ reduceText root reduced text := by
  unfold reduceText
  generalize text.splitOn '/' = components
  induction components generalizing reduced with
  | nil => exact down
  | cons component components ih => exact ih (reduceStep_rooted rooted down component)
end

variable {components : List Text} {path : Text}

theorem join_ne_nil (some_ : components ≠ []) (proper : ∀ c ∈ components, Proper c) : join components ≠ [] := by
  obtain ⟨first, rest, rfl⟩ := exists_cons_of_ne_nil some_
  obtain ⟨c, text, shape⟩ := exists_cons_of_ne_nil (proper first (by simp)).filled
  have inside : c ∈ join (first :: rest) := Split.mem_intercalate_of_mem (by simp) (by simp [shape] : c ∈ first)
  exact ne_nil_of_mem inside

theorem hasTrailingDirectorySeparator_append (front : Text) {back : Text} (some_ : back ≠ []) :
    hasTrailingDirectorySeparator (front ++ back) = hasTrailingDirectorySeparator back := by
  unfold hasTrailingDirectorySeparator
  rw [List.getLast?_append, List.getLast?_eq_getLast_of_ne_nil some_]
  rfl

theorem Proper.hasTrailingDirectorySeparator {component : Text} (proper : Proper component) :
    hasTrailingDirectorySeparator component = false := by
  have last := getLast_mem proper.filled
  unfold Paths.hasTrailingDirectorySeparator
  rw [List.getLast?_eq_getLast_of_ne_nil proper.filled]
  have slash : component.getLast proper.filled ≠ '/' := fun same => proper.free (same ▸ last)
  have backslash : component.getLast proper.filled ≠ '\\' := fun same => proper.slashed (same ▸ last)
  simp [isAnyDirectorySeparator, slash, backslash]

theorem hasTrailingDirectorySeparator_join (front : Text) (proper : ∀ c ∈ components, Proper c)
    (some_ : components ≠ []) : hasTrailingDirectorySeparator (front ++ join components) = false := by
  obtain ⟨rest, last, rfl⟩ := (eq_nil_or_concat' components).resolve_left some_
  have lastProper := proper last (by simp)
  rw [hasTrailingDirectorySeparator_append front (join_ne_nil some_ proper)]
  by_cases none : rest = []
  · have single : join ([] ++ [last]) = last := intercalate_singleton
    rw [none, single]
    exact lastProper.hasTrailingDirectorySeparator
  · have cut : join (rest ++ [last]) = join rest ++ (['/'] ++ last) := Split.intercalate_concat none last
    rw [cut, ← append_assoc, hasTrailingDirectorySeparator_append _ lastProper.filled]
    exact lastProper.hasTrailingDirectorySeparator

theorem hasTrailingDirectorySeparator_of_getLast (last : path.getLast? = some '/') :
    hasTrailingDirectorySeparator path = true := by
  unfold hasTrailingDirectorySeparator
  rw [last]
  rfl

theorem bytes_pos {text : Text} (some_ : text ≠ []) : 0 < bytes text := by
  obtain ⟨c, text, rfl⟩ := exists_cons_of_ne_nil some_
  have size := c.utf8Size_pos
  rw [bytes_cons]
  omega

theorem reducedOf_eq_nil (bare : afterRoot path = []) : reducedOf path = [] := by
  unfold reducedOf
  rw [bare, reduceText_nil]

theorem rootOf_getLast (slashed : Slashed path) (rooted : rootOf path ≠ []) (more : afterRoot path ≠ []) :
    (rootOf path).getLast? = some '/' := by
  rcases rootOf_trailing slashed with none | whole | trailing
  · exact absurd none rooted
  · have cut := rootOf_append_afterRoot path
    rw [whole] at cut
    exact absurd (append_right_eq_self.mp cut) more
  · exact trailing

theorem slashed_combineOne {result trailingPath : Text} (slashed : Slashed result) :
    Slashed (combineOne result trailingPath) := by
  have trailing := slashed_normalizeSlashes trailingPath
  unfold combineOne
  split
  · exact slashed
  dsimp only
  split
  · exact trailing
  split
  · exact fun listed => (mem_append.mp listed).elim slashed trailing
  intro listed
  rcases mem_append.mp listed with front | back
  · rcases mem_append.mp front with old | slash
    · exact slashed old
    · exact absurd (mem_singleton.mp slash) (by decide)
  · exact trailing back

theorem slashed_absoluteFileName (fileName currentDirectory : Text) : Slashed (absoluteFileName fileName currentDirectory) := by
  unfold absoluteFileName
  split
  · exact slashed_combineOne (slashed_normalizeSlashes currentDirectory)
  · exact slashed_normalizeSlashes fileName

/-- The normalized path: its root, then its reduced components. -/
def normalized (path : Text) : Text := rootOf path ++ join (reducedOf path)

theorem getNormalizedAbsolutePath_eq (fileName currentDirectory : Text) :
    getNormalizedAbsolutePath fileName currentDirectory = normalized (absoluteFileName fileName currentDirectory) := by
  unfold getNormalizedAbsolutePath normalized
  have slashed := slashed_absoluteFileName fileName currentDirectory
  generalize absoluteFileName fileName currentDirectory = path at slashed ⊢
  dsimp only
  rw [getNormalizedPathComponentsFromCombined_eq, getRootLength_eq, getPathFromPathComponents]
  by_cases none : reducedOf path = []
  · have empty : join [] = [] := rfl
    rw [none, empty, append_nil, append_nil]
    generalize rootOf path = root
    by_cases rooted : root = []
    · rw [rooted]
      rfl
    have positive := bytes_pos rooted
    rw [if_pos rooted]
    cases trailing : hasTrailingDirectorySeparator root with
    | true =>
      have same : ensureTrailingDirectorySeparator root = root := if_pos trailing
      rw [same, if_neg (lt_irrefl _), if_pos ⟨rfl, by omega⟩, same]
    | false =>
      have added : ensureTrailingDirectorySeparator root = root ++ ['/'] := by
        unfold ensureTrailingDirectorySeparator
        rw [trailing]
        rfl
      have slash : hasTrailingDirectorySeparator (root ++ ['/']) = true :=
        hasTrailingDirectorySeparator_of_getLast List.getLast?_concat
      rw [added, if_pos (by simp [Char.utf8Size_pos]), removeTrailingDirectorySeparator, if_pos slash, dropLast_concat]
  · have more : afterRoot path ≠ [] := fun bare => none (reducedOf_eq_nil bare)
    have root : (if rootOf path ≠ [] then ensureTrailingDirectorySeparator (rootOf path) else rootOf path) =
        rootOf path := by
      split
      · rename_i rooted
        have trailing := hasTrailingDirectorySeparator_of_getLast (rootOf_getLast slashed rooted more)
        exact if_pos trailing
      · rfl
    have proper := reducedOf_proper slashed
    have positive := bytes_pos (join_ne_nil none proper)
    have last := hasTrailingDirectorySeparator_join (rootOf path) proper none
    rw [root, if_pos (by rw [bytes_append]; omega), removeTrailingDirectorySeparator, last]
    rfl

end TypeScriptRs.Paths

namespace TypeScriptRs.Paths
open Utf8

def beforeLastSeparator (path : Text) : Text := (path.reverse.dropWhile (· ≠ '/')).tail.reverse

def getDirectoryPath (path : Text) : Text :=
  let path := normalizeSlashes path
  let root := rootOf path
  if root.length = path.length then path
  else
    let path := removeTrailingDirectorySeparator path
    path.take (max root.length (beforeLastSeparator path).length)

def getBaseFileName (path : Text) : Text :=
  let path := normalizeSlashes path
  let root := rootOf path
  if root.length = path.length then []
  else
    let path := removeTrailingDirectorySeparator path
    path.drop (max root.length (if '/' ∈ path then (beforeLastSeparator path).length + 1 else 0))

theorem length_normalizeSlashes (path : Text) : (normalizeSlashes path).length = path.length := by
  rw [normalizeSlashes, List.length_map]

theorem mem_normalizeSlashes (path : Text) : '\\' ∉ normalizeSlashes path := by
  intro member
  obtain ⟨c, -, same⟩ := List.mem_map.mp member
  split at same
  · cases same
  · rename_i other
    exact other same

theorem normalizeSlashes_eq {path : Text} (slashed : '\\' ∉ path) : normalizeSlashes path = path := by
  refine (List.map_congr_left fun c member => ?_).trans (List.map_id path)
  rw [if_neg]
  · rfl
  · rintro rfl
    exact slashed member

theorem length_removeTrailing (path : Text) : (removeTrailingDirectorySeparator path).length ≤ path.length := by
  unfold removeTrailingDirectorySeparator
  split
  · rw [List.length_dropLast]
    exact Nat.sub_le _ _
  · exact Nat.le_refl _

theorem length_beforeLastSeparator (path : Text) : (beforeLastSeparator path).length ≤ path.length - 1 := by
  rw [beforeLastSeparator, List.length_reverse, List.length_tail]
  have shorter := (List.dropWhile_suffix (l := path.reverse) (· ≠ '/')).length_le
  rw [List.length_reverse] at shorter
  omega

/-- How far a path is from a root: its length, where a separator the other way round counts too. -/
def depth (path : Text) : Nat := 2 * path.length + if '\\' ∈ path then 1 else 0

theorem depth_getDirectoryPath (path : Text) : getDirectoryPath path = path ∨ depth (getDirectoryPath path) < depth path := by
  have length := length_normalizeSlashes path
  unfold getDirectoryPath
  dsimp only
  split
  · by_cases slashed : '\\' ∈ path
    · rw [depth, depth, if_pos slashed, if_neg (mem_normalizeSlashes path), length]
      omega
    · exact .inl (normalizeSlashes_eq slashed)
  have root : (rootOf (normalizeSlashes path)).length ≤ (normalizeSlashes path).length := by
    have split := congrArg List.length (rootOf_append_afterRoot (normalizeSlashes path))
    rw [List.length_append] at split
    omega
  have trimmed := length_removeTrailing (normalizeSlashes path)
  have before := length_beforeLastSeparator (removeTrailingDirectorySeparator (normalizeSlashes path))
  unfold depth
  rw [List.length_take]
  split <;> split <;> omega

end TypeScriptRs.Paths
