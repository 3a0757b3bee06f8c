import TypeScriptRs.Paths.Relative

/-! Relative paths put before others, and what the whole is resolved to. -/
namespace TypeScriptRs.Paths
open Machine Utf8 List

section
variable (toLowercase : Char → Text)

def getCanonicalFileName (fileName : Text) (useCaseSensitiveFileNames : Bool) : Text :=
  if useCaseSensitiveFileNames then fileName else toFileNameLowerCase toLowercase fileName

/-- The Unicode table agrees with the lower case of ASCII letters. -/
def LowersAscii : Prop := ∀ c : Char, c.toNat < 128 → toLowercase c = [c.toLower]

def lowerCase (c : Char) : Text := if c = Char.ofNat 0x130 then [c] else toLowercase c

variable {toLowercase}

theorem lowerCase_ascii (ascii : LowersAscii toLowercase) {c : Char} (small : c.toNat < 128) :
    lowerCase toLowercase c = [c.toLower] := by
  unfold lowerCase
  split
  · rename_i dotted
    rw [dotted] at small
    exact absurd small (by decide)
  · exact ascii c small

theorem toFileNameLowerCase_eq (ascii : LowersAscii toLowercase) (fileName : Text) :
    toFileNameLowerCase toLowercase fileName = fileName.flatMap (lowerCase toLowercase) := by
  unfold toFileNameLowerCase
  split
  · rename_i all
    induction fileName with
    | nil => rfl
    | cons c fileName ih =>
      rw [all_cons, Bool.and_eq_true] at all
      have here := lowerCase_ascii ascii (of_decide_eq_true all.1)
      rw [map_cons, flatMap_cons, here, ih all.2]
      rfl
  · rfl

theorem equalStrings_eq (options : ComparePathsOptions) (a b : Text) : options.equalStrings toLowercase a b =
    decide (getCanonicalFileName toLowercase a options.useCaseSensitiveFileNames =
      getCanonicalFileName toLowercase b options.useCaseSensitiveFileNames) := by
  unfold ComparePathsOptions.equalStrings getCanonicalFileName
  split <;> rfl

theorem flatMap_join (f : Char → Text) (components : List Text) :
    (join components).flatMap f = (f '/').intercalate (components.map (List.flatMap f)) := by
  induction components with
  | nil => rfl
  | cons component components ih =>
    by_cases none : components = []
    · rw [none]
      simp [join, List.intercalate]
    · rw [join_cons component none, flatMap_append, flatMap_cons, ih, map_cons]
      obtain ⟨next, more, rfl⟩ := exists_cons_of_ne_nil none
      simp [List.intercalate]

theorem canonical_join (ascii : LowersAscii toLowercase) {useCaseSensitiveFileNames : Bool} (root : Text)
    {components components' : List Text}
    (same : components.map (getCanonicalFileName toLowercase · useCaseSensitiveFileNames) =
      components'.map (getCanonicalFileName toLowercase · useCaseSensitiveFileNames)) :
    getCanonicalFileName toLowercase (root ++ join components) useCaseSensitiveFileNames =
      getCanonicalFileName toLowercase (root ++ join components') useCaseSensitiveFileNames := by
  cases useCaseSensitiveFileNames with
  | true =>
    have same : components.map id = components'.map id := same
    rw [map_id, map_id] at same
    rw [same]
  | false =>
    have lowered : (fun component => getCanonicalFileName toLowercase component false) =
        List.flatMap (lowerCase toLowercase) := funext (toFileNameLowerCase_eq ascii)
    rw [lowered] at same
    have whole (text : Text) : getCanonicalFileName toLowercase text false = text.flatMap (lowerCase toLowercase) :=
      toFileNameLowerCase_eq ascii text
    rw [whole, whole, flatMap_append, flatMap_append, flatMap_join, flatMap_join, same]
end

section
variable {β : Type} {key : Text → β} {root : Text}

theorem reduceStep_map (rooted : root ≠ []) {reduced reduced' : List Text} (low : ['.', '.'] ∉ reduced)
    (low' : ['.', '.'] ∉ reduced') (same : reduced.map key = reduced'.map key) (component : Text) :
    (reduceStep root reduced component).map key = (reduceStep root reduced' component).map key := by
  have last {components : List Text} (low : ['.', '.'] ∉ components) : components.getLast? ≠ some ['.', '.'] :=
    fun up => low (mem_of_getLast? up)
  have none : reduced = [] ↔ reduced' = [] := by
    rw [← map_eq_nil_iff (f := key), same, map_eq_nil_iff]
  unfold reduceStep
  split
  · exact same
  split
  · by_cases empty : reduced = []
    · have empty' := none.mp empty
      rw [if_neg (fun some_ => some_.1 empty), if_pos ⟨empty, rooted⟩, if_neg (fun some_ => some_.1 empty'),
        if_pos ⟨empty', rooted⟩]
      exact same
    · have some_ : reduced ≠ [] ∧ reduced.getLast? ≠ some ['.', '.'] := ⟨empty, last low⟩
      have some_' : reduced' ≠ [] ∧ reduced'.getLast? ≠ some ['.', '.'] := ⟨mt none.mpr empty, last low'⟩
      rw [if_pos some_, if_pos some_', map_dropLast, map_dropLast, same]
  · rw [map_append, map_append, same]

theorem reduceText_map (rooted : root ≠ []) {reduced reduced' : List Text} (low : ['.', '.'] ∉ reduced)
    (low' : ['.', '.'] ∉ reduced') (same : reduced.map key = reduced'.map key) (text : Text) :
    (reduceText root reduced text).map key = (reduceText root reduced' text).map key := by
  unfold reduceText
  induction text.splitOn '/' generalizing reduced reduced' with
  | nil => exact same
  | cons component components ih =>
    exact ih (reduceStep_rooted rooted low component) (reduceStep_rooted rooted low' component)
      (reduceStep_map rooted low low' same component)
end

section
variable {source target : Text}

theorem relativeComponents_eq (toLowercase : Char → Text) (options : ComparePathsOptions) (fromRooted : rootOf source ≠ []) (toRooted : rootOf target ≠ [])
    (sameRoot : rootOf (normalizeSlashes source) = rootOf (normalizeSlashes target)) :
    ∃ above up above' down, reducedOf (normalizeSlashes source) = above ++ up ∧
      reducedOf (normalizeSlashes target) = above' ++ down ∧
      above.map (getCanonicalFileName toLowercase · options.useCaseSensitiveFileNames) =
        above'.map (getCanonicalFileName toLowercase · options.useCaseSensitiveFileNames) ∧
      getPathComponentsRelativeTo toLowercase source target options =
        [] :: (List.replicate up.length ['.', '.'] ++ down) := by
  have equal : options.equalStrings toLowercase = _ := funext fun a => funext fun b => equalStrings_eq options a b
  obtain ⟨above, up, above', down, fromShape, toShape, keys, -, components⟩ :=
    getPathComponentsRelativeTo_key fromRooted toRooted sameRoot equal
  exact ⟨above, up, above', down, fromShape, toShape, keys, components⟩
end

section
variable {path other relative : Text}

theorem rootOf_disk (disk : 0 < getEncodedRootLength path) : rootOf path ≠ [] := by
  intro none
  unfold getEncodedRootLength at disk
  rw [none, bytes_nil] at disk
  split at disk <;> omega

theorem getEncodedRootLength_url {c d : Char} {rest : Text} (separator : ¬isAnyDirectorySeparator c = true)
    (volume : d ≠ ':') (untitled : c ≠ '^') : ¬0 < getEncodedRootLength (c :: d :: rest) := by
  have url : encodedRoot (c :: d :: rest) = urlRootOf (c :: d :: rest) := by
    rw [encodedRoot_two, if_neg separator, if_neg fun both => volume both.2, if_neg fun both => untitled both.1]
  unfold getEncodedRootLength rootOf
  rw [url, urlRootOf]
  split
  · simp only [if_true]
    omega
  · simp

theorem notFileBase_disk (disk : 0 < getEncodedRootLength path) : rootOf (normalizeSlashes path) ∉ fileBases := by
  intro listed
  obtain ⟨more, shape⟩ : ∃ more, normalizeSlashes path = 'f' :: 'i' :: more := by
    have whole := rootOf_append_afterRoot (normalizeSlashes path)
    simp only [fileBases, mem_cons, not_mem_nil, or_false] at listed
    rcases listed with file | localhost
    · rw [file] at whole
      exact ⟨_, whole.symm⟩
    · rw [localhost] at whole
      exact ⟨_, whole.symm⟩
  have kept {c d : Char} (letter : d ≠ '/') (same : (if c = '\\' then '/' else c) = d) : c = d := by
    split at same
    · exact absurd same.symm letter
    · exact same
  rcases path with _ | ⟨c, _ | ⟨d, rest⟩⟩
  · cases shape
  · exact absurd (congrArg List.length shape) (by simp [normalizeSlashes])
  · rw [normalizeSlashes_cons, normalizeSlashes_cons, List.cons.injEq, List.cons.injEq] at shape
    cases kept (by decide) shape.1
    cases kept (by decide) shape.2.1
    exact getEncodedRootLength_url (by decide) (by decide) (by decide) disk

theorem normalized_combineOne (slashed : Slashed path) (rooted : rootOf path ≠ []) (disk : rootOf path ∉ fileBases)
    (known : rootOf other = rootOf path) (more : afterRoot other ≠ []) (slashedOther : Slashed other)
    (slashedRelative : Slashed relative) (unrooted : rootOf relative = []) : normalized (combineOne path relative) =
      rootOf path ++ join (reduceText (rootOf path) (reducedOf path) relative) := by
  by_cases filled : relative = []
  · rw [filled, reduceText_nil]
    rfl
  have some_ : path ≠ [] := by
    rintro rfl
    exact rooted rfl
  have first : relative.head? ≠ some '/' := by
    intro slash
    obtain ⟨rest, rfl⟩ := List.head?_eq_some_iff.mp slash
    exact rootOf_ne_nil_of_separator (by decide) rest unrooted
  have steps := reduceText_beforeMore slashed relative
  rcases rootOf_combined slashed rooted known more slashedOther first with stable | ⟨-, listed, -⟩
  · rw [combineOne_relative some_ filled slashedRelative unrooted, normalized, stable, reducedOf, stable,
      afterRoot_eq stable, steps]
  · exact absurd listed disk

theorem combineOne_normalizeSlashes (path relative : Text) : combineOne path (normalizeSlashes relative) =
    combineOne path relative := by
  have again := normalizeSlashes_of_slashed (slashed_normalizeSlashes relative)
  unfold combineOne
  rw [again]
  by_cases filled : relative = []
  · rw [filled]
    rfl
  · have filled' : normalizeSlashes relative ≠ [] := mt map_eq_nil_iff.mp filled
    rw [if_neg filled, if_neg filled']

theorem combineOne_rooted (rooted : rootOf (normalizeSlashes relative) ≠ []) (path : Text) :
    combineOne path relative = normalizeSlashes relative := by
  have length : getRootLength (normalizeSlashes relative) ≠ 0 := by
    rw [getRootLength_eq]
    exact (bytes_pos rooted).ne'
  unfold combineOne
  rw [if_neg, if_pos (.inr length)]
  rintro rfl
  exact rooted rfl

theorem absoluteFileName_combineOne (some_ : path ≠ []) (fileName : Text) :
    absoluteFileName fileName path = combineOne (normalizeSlashes path) fileName := by
  unfold absoluteFileName
  split
  · rfl
  rename_i rooted
  have length : rootOf fileName ≠ [] := by
    intro none
    refine rooted ⟨?_, some_⟩
    rw [getRootLength_eq, none, bytes_nil]
  exact (combineOne_rooted (rootOf_normalizeSlashes length) _).symm
end

variable {toLowercase : Char → Text} {options : ComparePathsOptions} {source target path : Text}

theorem combineOne_join {components : List Text} (proper : ∀ c ∈ components, Proper c) (some_ : components ≠ [])
    (filled : path ≠ []) (unrooted : rootOf (normalizeSlashes path) = []) :
    combineOne (join components) path = join components ++ '/' :: normalizeSlashes path := by
  have trailing := hasTrailingDirectorySeparator_join [] proper some_
  rw [nil_append] at trailing
  have relative : ¬(join components = [] ∨ getRootLength (normalizeSlashes path) ≠ 0) := by
    rw [getRootLength_eq, unrooted, bytes_nil]
    exact fun either => either.elim (join_ne_nil some_ proper) fun rooted => rooted rfl
  unfold combineOne
  rw [if_neg filled]
  rw [if_neg relative, trailing, if_neg (by simp), append_assoc]
  rfl

/-- The components that lead from one directory to another, and what follows them, lead where what follows leads
from the other. -/
theorem reduceText_rebased {root : Text} {above up down : List Text} (low : ['.', '.'] ∉ above ++ up)
    (regular : ∀ c ∈ down, Proper c ∧ c ≠ ['.', '.']) (unrooted : rootOf (normalizeSlashes path) = []) :
    reduceText root (above ++ up) (combineOne (join (List.replicate up.length ['.', '.'] ++ down)) path) =
      reduceText root (above ++ down) (normalizeSlashes path) := by
  have back := reduceText_relative root low regular
  have proper := proper_steps up.length regular
  by_cases none : path = []
  · rw [none]
    exact back
  by_cases here : List.replicate up.length ['.', '.'] ++ down = []
  · obtain ⟨top, bottom⟩ := append_eq_nil_iff.mp here
    have top : up = [] := by simpa using top
    rw [top, bottom]
    unfold combineOne
    rw [if_neg none]
    rfl
  · rw [combineOne_join proper here none unrooted, reduceText_append, back]

/-- Put after the components that lead to the other directory, a relative path is resolved to the same file. -/
theorem canonical_rebased (ascii : LowersAscii toLowercase) {useCaseSensitiveFileNames : Bool}
    (slashed : Slashed source) (slashed' : Slashed target) (rooted : rootOf target ≠ []) (disk : rootOf target ∉ fileBases)
    (sameRoot : rootOf source = rootOf target) {above up above' down : List Text}
    (fromShape : reducedOf source = above ++ up) (toShape : reducedOf target = above' ++ down)
    (keys : above.map (getCanonicalFileName toLowercase · useCaseSensitiveFileNames) =
      above'.map (getCanonicalFileName toLowercase · useCaseSensitiveFileNames))
    (unrooted : rootOf (normalizeSlashes path) = [])
    (plain : rootOf (combineOne (join (List.replicate up.length ['.', '.'] ++ down)) path) = []) :
    getCanonicalFileName toLowercase (normalized (combineOne source
        (combineOne (join (List.replicate up.length ['.', '.'] ++ down)) path))) useCaseSensitiveFileNames =
      getCanonicalFileName toLowercase (normalized (combineOne target path)) useCaseSensitiveFileNames := by
  have regular := regular_reducedOf slashed' rooted toShape
  have slashedPath : Slashed (combineOne (join (List.replicate up.length ['.', '.'] ++ down)) path) :=
    slashed_combineOne (slashed_join (proper_steps up.length regular))
  by_cases bare : afterRoot source = [] ∧ afterRoot target = []
  · have whole := rootOf_append_afterRoot source
    have whole' := rootOf_append_afterRoot target
    rw [bare.1, sameRoot] at whole
    rw [bare.2, whole] at whole'
    rw [reducedOf_eq_nil bare.1] at fromShape
    rw [reducedOf_eq_nil bare.2] at toShape
    obtain ⟨-, rfl⟩ := append_eq_nil_iff.mp fromShape.symm
    obtain ⟨-, rfl⟩ := append_eq_nil_iff.mp toShape.symm
    have kept : combineOne (join (List.replicate 0 ['.', '.'] ++ [])) path = normalizeSlashes path := by
      unfold combineOne
      by_cases none : path = []
      · rw [none]
        rfl
      · rw [if_neg none]
        exact if_pos (.inl rfl)
    rw [length_nil, kept, combineOne_normalizeSlashes, whole']
  obtain ⟨known, same, more, slashedKnown⟩ : ∃ known, rootOf known = rootOf target ∧ afterRoot known ≠ [] ∧ Slashed known := by
    by_cases none : afterRoot source = []
    · exact ⟨target, rfl, fun none' => bare ⟨none, none'⟩, slashed'⟩
    · exact ⟨source, sameRoot, none, slashed⟩
  have low : ['.', '.'] ∉ above ++ up := fromShape ▸ reduceText_rooted (sameRoot ▸ rooted) (by simp) _
  have low' : ['.', '.'] ∉ above' ++ down := toShape ▸ reduceText_rooted rooted (by simp) _
  have lowMiddle : ['.', '.'] ∉ above ++ down := fun listed => (mem_append.mp listed).elim
    (fun inside => low (mem_append_left _ inside)) (fun inside => low' (mem_append_right _ inside))
  have leads : normalized (combineOne source (combineOne (join (List.replicate up.length ['.', '.'] ++ down)) path)) =
      rootOf target ++ join (reduceText (rootOf target) (above ++ down) (normalizeSlashes path)) := by
    rw [normalized_combineOne slashed (sameRoot ▸ rooted) (sameRoot ▸ disk) (same.trans sameRoot.symm) more slashedKnown
      slashedPath plain, fromShape, reduceText_rebased low regular unrooted, sameRoot]
  have stays : normalized (combineOne target path) =
      rootOf target ++ join (reduceText (rootOf target) (above' ++ down) (normalizeSlashes path)) := by
    rw [← combineOne_normalizeSlashes, normalized_combineOne slashed' rooted disk same more slashedKnown
      (slashed_normalizeSlashes path) unrooted, toShape]
  rw [leads, stays]
  refine canonical_join ascii _ (reduceText_map rooted lowMiddle low' ?_ _)
  rw [map_append, map_append, keys]

/-- A path put after the relative path to its directory is resolved to the same file, unless what comes out
is read as absolute. -/
theorem rebased_resolves (ascii : LowersAscii toLowercase) (fromRooted : rootOf source ≠ [])
    (diskTo : 0 < getEncodedRootLength target)
    (sameRoot : rootOf (normalizeSlashes source) = rootOf (normalizeSlashes target))
    (plain : rootOf (normalizeSlashes path) = [] → rootOf (combinePaths (getPathFromPathComponents
      (getPathComponentsRelativeTo toLowercase source target options)) [path]) = []) :
    getCanonicalFileName toLowercase (getNormalizedAbsolutePath (combinePaths (getPathFromPathComponents
        (getPathComponentsRelativeTo toLowercase source target options)) [path]) source) options.useCaseSensitiveFileNames =
      getCanonicalFileName toLowercase (getNormalizedAbsolutePath path target) options.useCaseSensitiveFileNames := by
  have toRooted := rootOf_disk diskTo
  have some_ : source ≠ [] := by
    rintro rfl
    exact fromRooted rfl
  have some_' : target ≠ [] := by
    rintro rfl
    exact toRooted rfl
  obtain ⟨above, up, above', down, fromShape, toShape, keys, components⟩ :=
    relativeComponents_eq toLowercase options fromRooted toRooted sameRoot
  have rooted' := rootOf_normalizeSlashes toRooted
  have slashed' := slashed_normalizeSlashes target
  have proper := proper_steps up.length (regular_reducedOf slashed' rooted' toShape)
  have relative : combinePaths (getPathFromPathComponents
      (getPathComponentsRelativeTo toLowercase source target options)) [path] =
      combineOne (join (List.replicate up.length ['.', '.'] ++ down)) path := by
    rw [components]
    exact congrArg (combineOne · path) (normalizeSlashes_of_slashed (slashed_join proper))
  rw [relative] at plain ⊢
  rw [getNormalizedAbsolutePath_eq, getNormalizedAbsolutePath_eq, absoluteFileName_combineOne some_,
    absoluteFileName_combineOne some_']
  by_cases unrooted : rootOf (normalizeSlashes path) = []
  · exact canonical_rebased ascii (slashed_normalizeSlashes source) slashed' rooted' (notFileBase_disk diskTo) sameRoot
      fromShape toShape keys unrooted (plain unrooted)
  · rw [combineOne_rooted unrooted (join _), combineOne_rooted unrooted (normalizeSlashes target),
      combineOne_normalizeSlashes, combineOne_rooted unrooted (normalizeSlashes source)]

theorem findScheme_none (unrooted : rootOf path = []) : findScheme path = none := by
  by_contra found
  exact rootOf_ne_nil_of_scheme (Option.isSome_iff_ne_none.mpr found) unrooted

theorem findScheme_slash {front back : Text} (free : findScheme front = none) (free' : findScheme back = none)
    (last : front.getLast? ≠ some '/') (first : back.head? ≠ some '/') : findScheme (front ++ '/' :: back) = none := by
  induction front with
  | nil =>
    rw [nil_append, findScheme_cons, if_neg fun colon => absurd colon.1 (by decide), free']
    rfl
  | cons c front ih =>
    rw [findScheme_cons] at free
    split at free
    · cases free
    rename_i other
    have rest := ih (Option.map_eq_none_iff.mp free) fun slash => last (by
      rw [List.getLast?_cons, slash]
      rfl)
    rw [cons_append, findScheme_cons, rest]
    refine if_neg fun both => ?_
    obtain ⟨rfl, slashes⟩ := both
    match front with
    | [] =>
      obtain ⟨more, rfl⟩ : ∃ more, back = '/' :: more := by
        cases back with
        | nil => cases slashes
        | cons d back =>
          cases slashes
          exact ⟨back, rfl⟩
      exact first rfl
    | [d] =>
      cases slashes
      exact last rfl
    | _ :: _ :: _ => exact other ⟨rfl, slashes⟩

theorem rootOf_rebased {component : Text} {rest : List Text} (proper : ∀ c ∈ component :: rest, Proper c)
    (plain : ¬RootLike component rest) (noCaret : component = ['^'] → path = [])
    (unrooted : rootOf (normalizeSlashes path) = []) : rootOf (combineOne (join (component :: rest)) path) = [] := by
  have here := rootOf_join proper plain
  by_cases none : path = []
  · rw [none]
    exact here
  have trailing := hasTrailingDirectorySeparator_join [] proper (cons_ne_nil component rest)
  have last : (join (component :: rest)).getLast? ≠ some '/' := by
    intro slash
    exact Bool.false_ne_true (trailing.symm.trans (hasTrailingDirectorySeparator_of_getLast slash))
  have scheme := findScheme_slash (findScheme_join proper) (findScheme_none unrooted) last (head_notSlash unrooted)
  have url : (urlRootOf (join (component :: rest) ++ '/' :: normalizeSlashes path)).1 = [] := by
    unfold urlRootOf
    rw [scheme]
  rw [combineOne_join proper (cons_ne_nil component rest) none unrooted]
  obtain ⟨more, tail⟩ : ∃ more, join (component :: rest) ++ '/' :: normalizeSlashes path = component ++ '/' :: more := by
    by_cases single : rest = []
    · rw [single]
      exact ⟨_, congrArg (· ++ _) intercalate_singleton⟩
    · rw [join_cons component single]
      exact ⟨_, by rw [append_assoc]; rfl⟩
  rw [tail] at url ⊢
  exact rootOf_component (proper component (by simp)) (fun drive => plain (.inl drive))
    (.inr ⟨fun caret => none (noCaret caret), more, rfl⟩) url

end TypeScriptRs.Paths
