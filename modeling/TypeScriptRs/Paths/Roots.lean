import TypeScriptRs.Paths.Components

/-! Roots before other texts, and roots of paths whose slashes are normalized. -/
namespace TypeScriptRs.Paths
open Utf8 List

section
variable {scheme rest text separator authority base root : Text}

theorem findScheme_cons (c : Char) (text : Text) : findScheme (c :: text) =
    if c = ':' ∧ text.take 2 = ['/', '/'] then some ([], text.drop 2)
    else (findScheme text).map fun (scheme, after) => (c :: scheme, after) := by
  by_cases here : c = ':' ∧ text.take 2 = ['/', '/']
  · obtain ⟨rfl, slashes⟩ := here
    have shape := take_append_drop 2 text
    rw [slashes] at shape
    rw [if_pos ⟨rfl, slashes⟩]
    conv => lhs; rw [← shape]
    rfl
  · rw [if_neg here, findScheme]
    rintro rest rfl rfl
    exact here ⟨rfl, rfl⟩

theorem take_scheme (scheme rest : Text) : (scheme ++ "://".toList ++ rest).take 2 = (scheme ++ "://".toList).take 2 :=
  take_append_of_le_length (by rw [length_append]; exact Nat.le_add_left_of_le (by decide))

theorem findScheme_append (found : findScheme (scheme ++ "://".toList ++ rest) = some (scheme, rest))
    (other : Text) : findScheme (scheme ++ "://".toList ++ other) = some (scheme, other) := by
  induction scheme with
  | nil => rfl
  | cons c scheme ih =>
    simp only [cons_append] at found ⊢
    rw [findScheme_cons, take_scheme] at found ⊢
    split at found
    · cases found
    rename_i later
    obtain ⟨⟨scheme', rest'⟩, inner, same⟩ := Option.map_eq_some_iff.mp found
    cases same
    rw [if_neg later, ih inner]
    rfl

def fileBases : List Text := ["file:///".toList, "file://localhost/".toList]

/-- What else belongs to the root of a path that starts with a root. -/
def rootExtension (root rest : Text) : Text := if root ∈ fileBases then fileUrlVolume rest else []

theorem fileUrlVolumeSeparator_cases (found : fileUrlVolumeSeparator text = some separator) :
    separator = [':'] ∨ separator = ['%', '3', 'a'] ∨ separator = ['%', '3', 'A'] := by
  unfold fileUrlVolumeSeparator at found
  split at found
  · exact .inl (Option.some.inj found).symm
  · exact .inr (.inl (Option.some.inj found).symm)
  · exact .inr (.inr (Option.some.inj found).symm)
  · cases found

theorem fileUrlVolumeSeparator_append (found : fileUrlVolumeSeparator text = some separator)
    (more : Text) : fileUrlVolumeSeparator (separator ++ more) = some separator := by
  rcases fileUrlVolumeSeparator_cases found with rfl | rfl | rfl <;> rfl

theorem fileUrlVolume_cases (after : Text) : fileUrlVolume after = [] ∨ ∃ v separator rest, isVolumeCharacter v = true ∧
    fileUrlVolumeSeparator separator = some separator ∧
    ((after = v :: separator ∧ fileUrlVolume after = v :: separator) ∨
      (after = v :: separator ++ '/' :: rest ∧ fileUrlVolume after = v :: separator ++ ['/'])) := by
  unfold fileUrlVolume
  split
  · exact .inl rfl
  rename_i v more
  split
  · rename_i volume
    cases found : fileUrlVolumeSeparator more with
    | none => exact .inl rfl
    | some separator =>
      have shape := fileUrlVolumeSeparator_eq found
      have again := fileUrlVolumeSeparator_append found []
      rw [append_nil] at again
      dsimp only
      split
      · rename_i none
        rw [none, append_nil] at shape
        exact .inr ⟨v, separator, [], volume, again, .inl ⟨by rw [shape], rfl⟩⟩
      · rename_i rest slash
        rw [slash] at shape
        exact .inr ⟨v, separator, rest, volume, again, .inr ⟨by rw [shape]; rfl, rfl⟩⟩
      · exact .inl rfl
  · exact .inl rfl

theorem fileUrlVolume_slash {v : Char} (volume : isVolumeCharacter v = true)
    (found : fileUrlVolumeSeparator separator = some separator) (rest : Text) :
    fileUrlVolume (v :: separator ++ '/' :: rest) = v :: separator ++ ['/'] := by
  have again := fileUrlVolumeSeparator_append found ('/' :: rest)
  rw [cons_append, fileUrlVolume]
  simp only [volume, if_true, again, drop_left]

theorem urlRoot_eq (after : Text) (free : '/' ∉ authority)
    (found : findScheme (scheme ++ "://".toList ++ (authority ++ ['/'])) = some (scheme, authority ++ ['/'])) :
    urlRoot scheme (authority ++ '/' :: after) = scheme ++ "://".toList ++ (authority ++ ['/']) ++
      rootExtension (scheme ++ "://".toList ++ (authority ++ ['/'])) after := by
  have bases : (scheme = "file".toList ∧ (authority = [] ∨ authority = "localhost".toList)) ↔
      scheme ++ "://".toList ++ (authority ++ ['/']) ∈ fileBases := by
    constructor
    · rintro ⟨rfl, rfl | rfl⟩
      · decide
      · decide
    intro listed
    simp only [fileBases, mem_cons, not_mem_nil, or_false] at listed
    rcases listed with same | same
    · rw [same] at found
      have local_ : findScheme "file:///".toList = some ("file".toList, [] ++ ['/']) := by decide
      obtain ⟨rfl, tail⟩ := Prod.mk.inj (Option.some.inj (local_.symm.trans found))
      exact ⟨rfl, .inl (append_inj_left' tail rfl).symm⟩
    rw [same] at found
    have local_ : findScheme "file://localhost/".toList = some ("file".toList, "localhost".toList ++ ['/']) := by
      decide
    obtain ⟨rfl, tail⟩ := Prod.mk.inj (Option.some.inj (local_.symm.trans found))
    exact ⟨rfl, .inr (append_inj_left' tail rfl).symm⟩
  unfold urlRoot rootExtension
  rw [if_pos (by simp), Split.takeWhile_append_cons free, Split.dropWhile_append_cons free, tail_cons]
  dsimp only
  by_cases listed : scheme ++ "://".toList ++ (authority ++ ['/']) ∈ fileBases
  · rw [if_pos listed, if_pos (bases.mpr listed)]
    simp
  · rw [if_neg listed, if_neg fun both => listed (bases.mp both)]
    simp

theorem volume_notBase (listed : base ∈ fileBases) (v : Char) (separator : Text) :
    base ++ (v :: separator ++ ['/']) ∉ fileBases := by
  intro again
  simp only [fileBases, mem_cons, not_mem_nil, or_false] at listed again
  rcases listed with rfl | rfl
  · rcases again with same | same
    · simp at same
    · simp at same
  · rcases again with same | same
    · simp at same
    · simp at same

theorem urlRootOf_base (free : '/' ∉ authority)
    (found : findScheme (scheme ++ "://".toList ++ (authority ++ ['/'])) = some (scheme, authority ++ ['/']))
    (other : Text) : (urlRootOf (scheme ++ "://".toList ++ (authority ++ ['/']) ++ other)).1 =
      scheme ++ "://".toList ++ (authority ++ ['/']) ++
        rootExtension (scheme ++ "://".toList ++ (authority ++ ['/'])) other := by
  have shape : scheme ++ "://".toList ++ (authority ++ ['/']) ++ other =
      scheme ++ "://".toList ++ (authority ++ '/' :: other) := by simp
  rw [← urlRoot_eq other free found, shape, urlRootOf, findScheme_append found]

theorem urlRootOf_append {after : Text} (other : Text)
    (stable : ∀ other, (urlRootOf (base ++ other)).1 = base ++ rootExtension base other)
    (more : base ++ rootExtension base after ≠ base ++ after) :
    (urlRootOf (base ++ rootExtension base after ++ other)).1 =
      base ++ rootExtension base after ++ rootExtension (base ++ rootExtension base after) other := by
  by_cases listed : base ∈ fileBases
  · have extension_ : rootExtension base after = fileUrlVolume after := if_pos listed
    rcases fileUrlVolume_cases after with none | ⟨v, separator, rest, volume, found, whole | slash⟩
    · rw [extension_, none, append_nil]
      exact stable other
    · exact absurd (by rw [extension_, whole.2, whole.1]) more
    have again : rootExtension base (v :: separator ++ '/' :: other) = v :: separator ++ ['/'] := by
      unfold rootExtension
      rw [if_pos listed, fileUrlVolume_slash volume found]
    have closed : rootExtension (base ++ (v :: separator ++ ['/'])) other = [] :=
      if_neg (volume_notBase listed v separator)
    have shape : base ++ (v :: separator ++ ['/']) ++ other = base ++ (v :: separator ++ '/' :: other) := by simp
    rw [extension_, slash.2, closed, append_nil, shape, stable, again]
  · have none : rootExtension base after = [] := if_neg listed
    rw [none, append_nil]
    exact stable other

theorem encodedRoot_two (c d : Char) (rest : Text) : encodedRoot (c :: d :: rest) =
    if isAnyDirectorySeparator c then
      if d ≠ c then ([c], false)
      else if c ∈ rest then (c :: d :: rest.takeWhile (· ≠ c) ++ [c], false)
      else (c :: d :: rest, false)
    else if isVolumeCharacter c ∧ d = ':' then
      match rest with
      | [] => (c :: d :: rest, false)
      | s :: more => if isAnyDirectorySeparator s then ([c, d, s], false) else urlRootOf (c :: d :: s :: more)
    else if c = '^' ∧ d = '/' then ([c, d], false)
    else urlRootOf (c :: d :: rest) := by
  cases rest <;> rfl

theorem encodedRoot_three (c d s : Char) (rest : Text) : encodedRoot (c :: d :: s :: rest) =
    if isAnyDirectorySeparator c then
      if d ≠ c then ([c], false)
      else if c ∈ s :: rest then (c :: d :: (s :: rest).takeWhile (· ≠ c) ++ [c], false)
      else (c :: d :: s :: rest, false)
    else if isVolumeCharacter c ∧ d = ':' then
      if isAnyDirectorySeparator s then ([c, d, s], false) else urlRootOf (c :: d :: s :: rest)
    else if c = '^' ∧ d = '/' then ([c, d], false)
    else urlRootOf (c :: d :: s :: rest) := rfl

theorem rootExtension_short (short : root.length ≤ 3) (rest : Text) : rootExtension root rest = [] := by
  refine if_neg ?_
  intro listed
  simp only [fileBases, mem_cons, not_mem_nil, or_false] at listed
  rcases listed with rfl | rfl
  · exact absurd short (by decide)
  · exact absurd short (by decide)

theorem rootExtension_slash (slash : root.head? = some '/') (rest : Text) : rootExtension root rest = [] := by
  refine if_neg ?_
  intro listed
  simp only [fileBases, mem_cons, not_mem_nil, or_false] at listed
  rcases listed with rfl | rfl
  · exact absurd slash (by decide)
  · exact absurd slash (by decide)

theorem urlRootOf_stable (same : (urlRootOf (root ++ rest)).1 = root) (rooted : root ≠ [])
    (more : rest ≠ []) : 3 ≤ root.length ∧ ∀ other, (urlRootOf (root ++ other)).1 = root ++ rootExtension root other := by
  have part : root ≠ root ++ rest := fun whole => more (append_right_eq_self.mp whole.symm)
  unfold urlRootOf at same
  cases found : findScheme (root ++ rest) with
  | none =>
    rw [found] at same
    exact absurd same.symm rooted
  | some parts =>
    obtain ⟨scheme, after⟩ := parts
    rw [found] at same
    have whole := findScheme_eq found
    by_cases slash : '/' ∈ after
    · obtain ⟨authority, path, free, rfl⟩ : ∃ authority path, '/' ∉ authority ∧ after = authority ++ '/' :: path :=
        ⟨_, _, Split.not_mem_takeWhile '/' after, Split.takeWhile_cut slash⟩
      rw [whole] at found
      have base := findScheme_append found (authority ++ ['/'])
      have root_ : root = _ := same.symm.trans (urlRoot_eq path free base)
      have split_ : scheme ++ "://".toList ++ (authority ++ '/' :: path) =
          scheme ++ "://".toList ++ (authority ++ ['/']) ++ path := by simp
      rw [whole, split_] at part
      constructor
      · rw [root_]
        simp only [length_append]
        exact Nat.le_add_right_of_le (Nat.le_add_right_of_le (Nat.le_add_left_of_le (by decide)))
      · intro other
        have stable := urlRootOf_append other (urlRootOf_base free base) (root_ ▸ part)
        rw [← root_] at stable
        exact stable
    · have bare : urlRoot scheme after = scheme ++ "://".toList ++ after := if_neg slash
      exact absurd (same.symm.trans (bare.trans whole.symm)) part

theorem rootOf_append (same : rootOf (root ++ rest) = root) (rooted : root ≠ []) (more : rest ≠ [])
    (slashed : Slashed root) (other : Text) (posix : root = ['/'] → other.head? ≠ some '/') :
    rootOf (root ++ other) = root ++ rootExtension root other := by
  have part : root ++ rest ≠ root := fun whole => more (append_right_eq_self.mp whole)
  have separator : ∀ c ∈ root, isAnyDirectorySeparator c = true → c = '/' := fun c listed => slashed.slash listed
  obtain ⟨c, d, tail, shape⟩ : ∃ c d tail, root ++ rest = c :: d :: tail := by
    obtain ⟨c, root', rfl⟩ := exists_cons_of_ne_nil rooted
    obtain ⟨d, tail, rest_⟩ := exists_cons_of_ne_nil (append_ne_nil_of_right_ne_nil root' more)
    exact ⟨c, d, tail, by rw [cons_append, rest_]⟩
  have url : (urlRootOf (root ++ rest)).1 = root → isAnyDirectorySeparator c = false →
      ¬(isVolumeCharacter c = true ∧ d = ':' ∧ ∃ s more, tail = s :: more ∧ isAnyDirectorySeparator s = true) →
      ¬(c = '^' ∧ d = '/') → rootOf (root ++ other) = root ++ rootExtension root other := by
    intro found notSlash notVolume notUntitled
    obtain ⟨long, stable⟩ := urlRootOf_stable found rooted more
    rw [← stable other]
    match root, long, shape with
    | c' :: d' :: s' :: root', _, shape =>
      obtain ⟨rfl, rfl, rfl⟩ : c' = c ∧ d' = d ∧ s' :: (root' ++ rest) = tail := by simpa using shape
      have notDos : ¬(isVolumeCharacter c' = true ∧ d' = ':' ∧ isAnyDirectorySeparator s' = true) :=
        fun dos => notVolume ⟨dos.1, dos.2.1, s', _, rfl, dos.2.2⟩
      have branch : encodedRoot (c' :: d' :: s' :: (root' ++ other)) = urlRootOf (c' :: d' :: s' :: (root' ++ other)) := by
        rw [encodedRoot_three, notSlash, if_neg Bool.false_ne_true]
        split
        · rename_i volume
          rw [if_neg fun dos => notDos ⟨volume.1, volume.2, dos⟩]
        · rfl
      exact congrArg Prod.fst branch
  unfold rootOf at same
  rw [shape] at same url part
  rw [encodedRoot_two] at same
  split at same
  · rename_i sep
    split at same
    · cases same
      have slash := separator c (by simp) sep
      cases slash
      rw [rootExtension_short (by decide)]
      cases other with
      | nil => rfl
      | cons e other =>
        have free : e ≠ '/' := fun again => posix rfl (by rw [again]; rfl)
        unfold rootOf encodedRoot
        simp [free, isAnyDirectorySeparator]
    rename_i double
    split at same
    · have slash : c = '/' := separator c (by rw [← same]; simp) sep
      have again : d = c := not_not.mp double
      cases same
      subst again slash
      have free := Split.not_mem_takeWhile '/' tail
      rw [rootExtension_slash rfl]
      generalize tail.takeWhile (· ≠ '/') = server at free ⊢
      have shape' : '/' :: '/' :: server ++ ['/'] ++ other = '/' :: '/' :: (server ++ '/' :: other) := by simp
      unfold rootOf
      rw [shape', encodedRoot_two, if_pos (by decide), if_neg (by decide), if_pos (by simp),
        Split.takeWhile_append_cons free, append_nil]
    · exact absurd same part
  rename_i notSep
  have notSlash : isAnyDirectorySeparator c = false := by simpa using notSep
  split at same
  · rename_i volume
    split at same
    · exact absurd same part
    rename_i s more'
    split at same
    · rename_i sep
      cases same
      rw [rootExtension_short (by simp), append_nil]
      have branch := encodedRoot_three c d s other
      rw [if_neg notSep, if_pos volume, if_pos sep] at branch
      exact congrArg Prod.fst branch
    rename_i notSep'
    refine url same notSlash ?_ ?_
    · rintro ⟨-, -, s', more'', same', sep'⟩
      cases same'
      exact notSep' sep'
    · rintro ⟨rfl, -⟩
      exact absurd volume.1 (by decide)
  · rename_i notVolume
    split at same
    · rename_i untitled
      cases same
      rw [rootExtension_short (by simp), append_nil]
      obtain ⟨rfl, rfl⟩ := untitled
      unfold rootOf encodedRoot
      simp [isAnyDirectorySeparator, isVolumeCharacter]
    · rename_i notUntitled
      exact url same notSlash (fun dos => notVolume ⟨dos.1, dos.2.1⟩) notUntitled

theorem rootOf_extend {path : Text} (slashed : Slashed path) (rooted : rootOf path ≠ []) (more : afterRoot path ≠ []) (other : Text)
    (posix : rootOf path = ['/'] → other.head? ≠ some '/') :
    rootOf (rootOf path ++ other) = rootOf path ++ rootExtension (rootOf path) other := by
  have same : rootOf (rootOf path ++ afterRoot path) = rootOf path := by rw [rootOf_append_afterRoot]
  exact rootOf_append same rooted more (slashed_rootOf slashed) other posix
end

variable {path : Text}

theorem urlRootOf_ne_nil (found : (findScheme path).isSome = true) : (urlRootOf path).1 ≠ [] := by
  obtain ⟨⟨scheme, rest⟩, some_⟩ := Option.isSome_iff_exists.mp found
  unfold urlRootOf
  rw [some_]
  dsimp only
  unfold urlRoot
  split <;> simp

theorem rootOf_ne_nil_of_separator {c : Char} (separator : isAnyDirectorySeparator c = true) (rest : Text) :
    rootOf (c :: rest) ≠ [] := by
  unfold rootOf
  cases rest with
  | nil => simp [encodedRoot, separator]
  | cons d rest =>
    rw [encodedRoot_two, if_pos separator]
    split
    · exact cons_ne_nil _ _
    · split
      · exact cons_ne_nil _ _
      · exact cons_ne_nil _ _

theorem head_notSlash (unrooted : rootOf path = []) : path.head? ≠ some '/' := by
  intro slash
  obtain ⟨rest, rfl⟩ := List.head?_eq_some_iff.mp slash
  exact rootOf_ne_nil_of_separator (by decide) rest unrooted

theorem rootOf_ne_nil_of_scheme (found : (findScheme path).isSome = true) : rootOf path ≠ [] := by
  have url := urlRootOf_ne_nil found
  unfold rootOf
  match path with
  | [] => cases found
  | [c] =>
    simp [findScheme] at found
  | c :: d :: rest =>
    rw [encodedRoot_two]
    split
    · split
      · exact cons_ne_nil _ _
      · split
        · exact cons_ne_nil _ _
        · exact cons_ne_nil _ _
    split
    · split
      · exact cons_ne_nil _ _
      · split
        · exact cons_ne_nil _ _
        · exact url
    · split
      · exact cons_ne_nil _ _
      · exact url

theorem normalizeSlashes_cons (c : Char) (path : Text) :
    normalizeSlashes (c :: path) = (if c = '\\' then '/' else c) :: normalizeSlashes path := rfl

theorem findScheme_normalizeSlashes (found : (findScheme path).isSome = true) :
    (findScheme (normalizeSlashes path)).isSome = true := by
  induction path with
  | nil => cases found
  | cons c path ih =>
    rw [normalizeSlashes_cons, findScheme_cons] at *
    split at found
    · rename_i here
      obtain ⟨rfl, slashes⟩ := here
      have kept : (normalizeSlashes path).take 2 = ['/', '/'] := by
        unfold normalizeSlashes
        rw [← map_take, slashes]
        rfl
      rw [if_pos ⟨rfl, kept⟩]
      rfl
    · rw [Option.isSome_map] at found
      have later := ih found
      generalize (if c = '\\' then '/' else c) = c'
      split
      · rfl
      · rw [Option.isSome_map]
        exact later

theorem rootOf_normalizeSlashes (rooted : rootOf path ≠ []) : rootOf (normalizeSlashes path) ≠ [] := by
  have scheme : (urlRootOf path).1 ≠ [] → rootOf (normalizeSlashes path) ≠ [] := by
    intro url
    refine rootOf_ne_nil_of_scheme (findScheme_normalizeSlashes ?_)
    unfold urlRootOf at url
    split at url
    · rename_i found
      rw [found]
      rfl
    · exact absurd rfl url
  have first : ∀ c rest, isAnyDirectorySeparator c = true → rootOf (normalizeSlashes (c :: rest)) ≠ [] := by
    intro c rest separator
    rw [normalizeSlashes_cons]
    refine rootOf_ne_nil_of_separator ?_ _
    split
    · rfl
    · exact separator
  unfold rootOf at rooted
  match path with
  | [] => exact absurd rfl rooted
  | [c] =>
    by_cases separator : isAnyDirectorySeparator c = true
    · exact first c [] separator
    · simp [encodedRoot, separator] at rooted
  | c :: d :: rest =>
    rw [encodedRoot_two] at rooted
    split at rooted
    · rename_i separator
      exact first c _ separator
    split at rooted
    · rename_i volume
      obtain ⟨letter, rfl⟩ := volume
      have plain : c ≠ '\\' := by
        rintro rfl
        exact absurd letter (by decide)
      have kept : normalizeSlashes (c :: ':' :: rest) = c :: ':' :: normalizeSlashes rest := by
        rw [normalizeSlashes_cons, if_neg plain]
        rfl
      have notSeparator : isAnyDirectorySeparator c = false := by
        rename_i other
        exact Bool.eq_false_iff.mpr other
      split at rooted
      · unfold rootOf
        rw [kept, encodedRoot_two, notSeparator, if_neg Bool.false_ne_true, if_pos ⟨letter, rfl⟩]
        exact cons_ne_nil _ _
      rename_i s more
      split at rooted
      · rename_i separator
        have slash : isAnyDirectorySeparator (if s = '\\' then '/' else s) = true := by
          split
          · rfl
          · exact separator
        unfold rootOf
        rw [kept, normalizeSlashes_cons, encodedRoot_three, notSeparator, if_neg Bool.false_ne_true,
          if_pos ⟨letter, rfl⟩, if_pos slash]
        exact cons_ne_nil _ _
      · exact scheme rooted
    · split at rooted
      · rename_i untitled
        obtain ⟨rfl, rfl⟩ := untitled
        exact cons_ne_nil _ _
      · exact scheme rooted

theorem combinePaths_rooted (rooted : rootOf path ≠ []) (currentDirectory : Text) :
    combinePaths currentDirectory [path] = normalizeSlashes path := by
  have some_ : path ≠ [] := by
    rintro rfl
    exact rooted rfl
  have root : getRootLength (normalizeSlashes path) ≠ 0 := by
    rw [getRootLength_eq]
    exact (bytes_pos (rootOf_normalizeSlashes rooted)).ne'
  unfold combinePaths
  rw [foldl_cons, foldl_nil, combineOne, if_neg some_]
  exact if_pos (.inr root)

theorem reducedComponents_rooted (rooted : rootOf path ≠ []) (currentDirectory : Text) :
    reducePathComponents (getPathComponents path currentDirectory) =
      rootOf (normalizeSlashes path) :: reducedOf (normalizeSlashes path) := by
  unfold getPathComponents
  rw [combinePaths_rooted rooted, reducePathComponents_pathComponents]

end TypeScriptRs.Paths
