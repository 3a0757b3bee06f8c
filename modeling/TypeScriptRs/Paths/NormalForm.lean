import TypeScriptRs.Paths.Agreement
import TypeScriptRs.Paths.Rebasing
import TypeScriptRs.Resolver.State

/-! Normalization as a normal form: what is normalized stays as it is. -/
namespace TypeScriptRs.Paths
open Utf8 List
open Resolver (normalizePath)

section
variable {root : Text} {components : List Text}

/-- Components that go up only at the start, and only where there is no root. -/
def Leading (root : Text) (components : List Text) : Prop := ∃ up down, components = List.replicate up ['.', '.'] ++ down ∧
  ['.', '.'] ∉ down ∧ (root ≠ [] → up = 0)

theorem Leading.dropLast (leading : Leading root components) (last : components.getLast? ≠ some ['.', '.']) :
    Leading root components.dropLast := by
  obtain ⟨up, down, rfl, regular, none⟩ := leading
  by_cases empty : down = []
  · rw [empty, append_nil] at last ⊢
    cases up with
    | zero => exact ⟨0, [], rfl, by simp, fun _ => rfl⟩
    | succ up =>
      refine absurd ?_ last
      rw [replicate_succ', List.getLast?_concat]
  · rw [dropLast_append_of_ne_nil empty]
    exact ⟨up, down.dropLast, rfl, fun listed => regular (dropLast_subset _ listed), none⟩

theorem Leading.concat (leading : Leading root components) {component : Text}
    (other : component ≠ ['.', '.']) : Leading root (components ++ [component]) := by
  obtain ⟨up, down, rfl, regular, none⟩ := leading
  refine ⟨up, down ++ [component], append_assoc .., ?_, none⟩
  intro listed
  rcases mem_append.mp listed with before | here
  · exact regular before
  · exact other (mem_singleton.mp here).symm

theorem Leading.up (leading : Leading root components)
    (stuck : ¬(components ≠ [] ∧ components.getLast? ≠ some ['.', '.'])) (top : ¬(components = [] ∧ root ≠ [])) :
    Leading root (components ++ [['.', '.']]) := by
  obtain ⟨up, down, rfl, regular, none⟩ := leading
  have empty : down = [] := by
    by_contra some_
    obtain ⟨front, last, rfl⟩ := (eq_nil_or_concat' down).resolve_left some_
    refine stuck ⟨by simp, ?_⟩
    rw [← append_assoc, List.getLast?_concat]
    rintro ⟨⟩
    exact regular (by simp)
  rw [empty, append_nil] at top ⊢
  refine ⟨up + 1, [], by rw [append_nil, replicate_succ'], by simp, fun rooted => ?_⟩
  rw [none rooted] at top
  exact absurd ⟨rfl, rooted⟩ top

theorem Leading.step {components : List Text} (leading : Leading root components) (component : Text) :
    Leading root (reduceStep root components component) := by
  unfold reduceStep
  split
  · exact leading
  split
  · split
    · rename_i pop
      exact leading.dropLast pop.2
    split
    · exact leading
    · rename_i up stuck top
      rw [up]
      exact leading.up stuck top
  · rename_i other
    exact leading.concat other

theorem reduceText_leading (leading : Leading root components) (text : Text) :
    Leading root (reduceText root components text) := by
  unfold reduceText
  generalize text.splitOn '/' = pieces
  induction pieces generalizing components with
  | nil => exact leading
  | cons piece pieces ih => exact ih (leading.step piece)

theorem leading_reducedOf (path : Text) : Leading (rootOf path) (reducedOf path) :=
  reduceText_leading ⟨0, [], rfl, by simp, fun _ => rfl⟩ _

theorem foldl_dots (up : Nat) : (List.replicate up ['.', '.']).foldl (reduceStep []) [] = List.replicate up ['.', '.'] := by
  induction up with
  | zero => rfl
  | succ up ih =>
    have last : (List.replicate up ['.', '.']).getLast? = none ∨ (List.replicate up ['.', '.']).getLast? = some ['.', '.'] := by
      cases up with
      | zero => exact .inl rfl
      | succ up => exact .inr (by rw [replicate_succ', List.getLast?_concat])
    have pushed : reduceStep [] (List.replicate up ['.', '.']) ['.', '.'] = List.replicate up ['.', '.'] ++ [['.', '.']] := by
      unfold reduceStep
      rw [if_neg (by decide), if_pos rfl, if_neg, if_neg (fun both => both.2 rfl)]
      rintro ⟨some_, other⟩
      rcases last with none | dots
      · exact some_ (List.getLast?_eq_none_iff.mp none)
      · exact other dots
    rw [replicate_succ', foldl_append, ih]
    exact pushed

theorem foldl_leading (leading : Leading [] components) (proper : ∀ c ∈ components, Proper c) :
    components.foldl (reduceStep []) [] = components := by
  obtain ⟨up, down, rfl, regular, -⟩ := leading
  rw [foldl_append, foldl_dots]
  refine foldl_regular [] _ ?_
  intro c listed
  refine ⟨proper c (mem_append_right _ listed), ?_⟩
  rintro rfl
  exact regular listed
end

section
variable {path : Text}

theorem normalized_again_relative (slashed : Slashed path) (unrooted : rootOf path = []) :
    normalized (normalized path) = normalized path := by
  have proper := reducedOf_proper slashed
  have leading := leading_reducedOf path
  have whole : normalized path = join (reducedOf path) := by rw [normalized, unrooted, nil_append]
  rw [whole]
  rw [unrooted] at leading
  generalize reducedOf path = components at proper leading ⊢
  have kept (none : rootOf (join components) = []) : normalized (join components) = join components := by
    rw [normalized_unrooted none, reduceText_join _ _ proper, foldl_leading leading proper]
  cases components with
  | nil => rfl
  | cons component rest =>
    by_cases like : RootLike component rest
    · refine (normalized_rootLike ?_ like).2
      obtain ⟨up, down, shape, regular, -⟩ := leading
      -- What looks like a root does not go up, so nothing after it does.
      cases up with
      | zero =>
        rw [replicate_zero, nil_append] at shape
        rw [← shape] at regular
        intro c listed
        refine ⟨proper c (mem_cons_of_mem _ listed), ?_⟩
        rintro rfl
        exact regular (mem_cons_of_mem _ listed)
      | succ up =>
        cases (List.cons.inj shape).1
        exact absurd like (not_rootLike_dots rest)
    · exact kept (rootOf_join proper like)

theorem normalized_normalized (slashed : Slashed path) : normalized (normalized path) = normalized path := by
  by_cases rooted : rootOf path = []
  · exact normalized_again_relative slashed rooted
  · exact (normalized_again slashed rooted).2
end

section
variable {path : Text}

theorem fileUrlVolumeSeparator_slash (text : Text) : fileUrlVolumeSeparator (text ++ ['/']) = fileUrlVolumeSeparator text := by
  match text with
  | [] => rfl
  | [c] =>
    by_cases colon : c = ':'
    · rw [colon]
      rfl
    · simp [fileUrlVolumeSeparator, colon]
  | [c, d] =>
    by_cases colon : c = ':'
    · rw [colon]
      rfl
    · simp [fileUrlVolumeSeparator, colon]
  | c :: d :: e :: rest =>
    unfold fileUrlVolumeSeparator
    split
    · rename_i same
      cases same
      rfl
    · rename_i same
      cases same
      rfl
    · rename_i same
      cases same
      rfl
    rename_i colon small large
    split
    · rename_i same
      cases same
      exact absurd rfl (colon _)
    · rename_i same
      cases same
      exact absurd rfl (small _)
    · rename_i same
      cases same
      exact absurd rfl (large _)
    · rfl

theorem fileUrlVolume_concat (after : Text) :
    fileUrlVolume (after ++ ['/']) = fileUrlVolume after ∨ fileUrlVolume (after ++ ['/']) = after ++ ['/'] := by
  cases after with
  | nil => exact .inl rfl
  | cons v more =>
    rw [cons_append]
    unfold fileUrlVolume
    dsimp only
    by_cases letter : isVolumeCharacter v = true
    · rw [if_pos letter, if_pos letter, fileUrlVolumeSeparator_slash]
      cases found : fileUrlVolumeSeparator more with
      | none => exact .inl rfl
      | some separator =>
        have shape := fileUrlVolumeSeparator_eq found
        have drop : (more ++ ['/']).drop separator.length = more.drop separator.length ++ ['/'] := by
          refine drop_append_of_le_length ?_
          rw [shape, length_append]
          omega
        dsimp only
        rw [drop]
        cases rest : more.drop separator.length with
        | nil =>
          rw [rest, append_nil] at shape
          rw [shape]
          exact .inr rfl
        | cons c rest =>
          by_cases slash : c = '/'
          · rw [slash]
            exact .inl rfl
          · exact .inl (by simp [slash])
    · rw [if_neg letter, if_neg letter]
      exact .inl rfl

theorem urlRootOf_slash (last : path.getLast? ≠ some '/') :
    (urlRootOf (path ++ ['/'])).1 = (urlRootOf path).1 ∨ (urlRootOf (path ++ ['/'])).1 = path ++ ['/'] := by
  unfold urlRootOf
  cases found : findScheme path with
  | none =>
    rw [findScheme_slash found rfl last (by simp)]
    exact .inl rfl
  | some parts =>
    obtain ⟨scheme, rest⟩ := parts
    have shape := findScheme_eq found
    have longer : findScheme (path ++ ['/']) = some (scheme, rest ++ ['/']) := by
      rw [shape, append_assoc]
      exact findScheme_append (shape ▸ found) _
    rw [longer]
    dsimp only
    by_cases slash : '/' ∈ rest
    · obtain ⟨authority, after, free, rfl⟩ : ∃ authority after, '/' ∉ authority ∧ rest = authority ++ '/' :: after :=
        ⟨_, _, Split.not_mem_takeWhile '/' rest, Split.takeWhile_cut slash⟩
      have cons : authority ++ '/' :: after ++ ['/'] = authority ++ '/' :: (after ++ ['/']) := by simp
      unfold urlRoot
      rw [cons, if_pos (by simp), if_pos slash, Split.takeWhile_append_cons free, Split.dropWhile_append_cons free,
        Split.takeWhile_append_cons free, Split.dropWhile_append_cons free, tail_cons, tail_cons]
      dsimp only
      split
      · rcases fileUrlVolume_concat after with same | whole
        · exact .inl (by rw [same])
        · rw [whole, shape]
          simp
      · exact .inl rfl
    · have empty : fileUrlVolume [] = [] := rfl
      unfold urlRoot
      rw [if_pos (by simp), Split.takeWhile_append_cons slash, Split.dropWhile_append_cons slash, tail_cons]
      dsimp only
      rw [empty, ite_self, append_nil, shape]
      exact .inr (by simp)

theorem rootOf_slash (slashed : Slashed path) (last : path.getLast? ≠ some '/') :
    rootOf (path ++ ['/']) = rootOf path ∨ rootOf (path ++ ['/']) = path ++ ['/'] := by
  have url := urlRootOf_slash last
  have separator : ∀ c ∈ path, isAnyDirectorySeparator c = true → c = '/' := fun c listed => slashed.slash listed
  unfold rootOf
  match path with
  | [] => exact .inr rfl
  | [c] =>
    have notSeparator : ¬isAnyDirectorySeparator c = true :=
      fun separator' => last (by rw [separator c (by simp) separator']; rfl)
    have none : encodedRoot [c] = ([], false) := if_neg notSeparator
    have plain : (urlRootOf [c]).1 = [] := by simp [urlRootOf, findScheme_cons, findScheme]
    rw [singleton_append, plain] at url
    rw [singleton_append, none, encodedRoot_two, if_neg notSeparator, if_neg fun volume => absurd volume.2 (by decide)]
    by_cases caret : c = '^'
    · rw [if_pos ⟨caret, rfl⟩]
      exact .inr rfl
    · rw [if_neg fun both => caret both.1]
      exact url
  | c :: d :: rest =>
    rw [cons_append, cons_append] at url ⊢
    rw [encodedRoot_two, encodedRoot_two]
    by_cases sep : isAnyDirectorySeparator c = true
    · have slash := separator c (by simp) sep
      rw [if_pos sep, if_pos sep]
      by_cases differs : d ≠ c
      · rw [if_pos differs, if_pos differs]
        exact .inl rfl
      rw [if_neg differs, if_neg differs, slash]
      by_cases listed : '/' ∈ rest
      · obtain ⟨server, more, free, rfl⟩ : ∃ server more, '/' ∉ server ∧ rest = server ++ '/' :: more :=
          ⟨_, _, Split.not_mem_takeWhile '/' rest, Split.takeWhile_cut listed⟩
        have cons : server ++ '/' :: more ++ ['/'] = server ++ '/' :: (more ++ ['/']) := by simp
        rw [cons, if_pos (by simp), if_pos listed, Split.takeWhile_append_cons free, Split.takeWhile_append_cons free]
        exact .inl rfl
      · rw [if_pos (by simp), if_neg listed, Split.takeWhile_append_cons listed]
        exact .inr rfl
    rw [if_neg sep, if_neg sep]
    by_cases volume : isVolumeCharacter c = true ∧ d = ':'
    · rw [if_pos volume, if_pos volume]
      cases rest with
      | nil => exact .inr rfl
      | cons s more =>
        rw [cons_append] at url ⊢
        dsimp only
        by_cases drive : isAnyDirectorySeparator s = true
        · rw [if_pos drive, if_pos drive]
          exact .inl rfl
        · rw [if_neg drive, if_neg drive]
          exact url
    · rw [if_neg volume, if_neg volume]
      by_cases caret : c = '^' ∧ d = '/'
      · rw [if_pos caret, if_pos caret]
        exact .inl rfl
      · rw [if_neg caret, if_neg caret]
        exact url
end

section
variable {path simple : Text}

/-- The path as the components give it, with a separator at its end where it had one. -/
def normalizeByComponents (path : Text) : Text :=
  let result := getNormalizedAbsolutePath path []
  if hasTrailingDirectorySeparator path && !hasTrailingDirectorySeparator result then result ++ ['/'] else result

theorem normalizePath_eq (path : Text) : normalizePath path =
    (simpleNormalizePath (normalizeSlashes path)).getD (normalizeByComponents (normalizeSlashes path)) := by
  unfold normalizePath
  dsimp only
  cases simpleNormalizePath (normalizeSlashes path) with
  | none => rfl
  | some simple => rfl

theorem normalizeByComponents_eq (slashed : Slashed path) : normalizeByComponents path =
    if hasTrailingDirectorySeparator path && !hasTrailingDirectorySeparator (normalized path) then normalized path ++ ['/']
    else normalized path := by
  unfold normalizeByComponents
  rw [getNormalizedAbsolutePath_eq, absoluteFileName_target, normalizeSlashes_of_slashed slashed]

theorem trailing_iff (slashed : Slashed path) : hasTrailingDirectorySeparator path = true ↔ path.getLast? = some '/' := by
  refine ⟨fun trailing => ?_, hasTrailingDirectorySeparator_of_getLast⟩
  unfold hasTrailingDirectorySeparator at trailing
  cases last : path.getLast? with
  | none =>
    rw [last] at trailing
    cases trailing
  | some c =>
    rw [last] at trailing
    rcases Bool.or_eq_true_iff.mp trailing with slash | backslash
    · rw [of_decide_eq_true slash]
    · exact absurd (of_decide_eq_true backslash ▸ mem_of_getLast? last) slashed

theorem replaceDotSegments_getLast (text : Text) : (replaceDotSegments text).getLast? = text.getLast? := by
  fun_induction replaceDotSegments text with
  | case1 path ih => rw [List.getLast?_cons, ih, List.getLast?_cons, List.getLast?_cons, List.getLast?_cons, Option.getD_some,
      Option.getD_some]
  | case2 c path other ih => rw [List.getLast?_cons, ih, List.getLast?_cons]
  | case3 => rfl

theorem simple_fine (found : simpleNormalizePath path = some simple) : hasRelativePathSegment simple = false := by
  unfold simpleNormalizePath at found
  split at found
  · rename_i fine
    cases found
    simpa using fine
  dsimp only at found
  split at found
  · rename_i ok
    cases found
    exact ok.2.1
  · cases found

theorem simple_getLast (found : simpleNormalizePath path = some simple) (some_ : simple ≠ []) :
    simple.getLast? = path.getLast? := by
  unfold simpleNormalizePath at found
  split at found
  · cases found
    rfl
  dsimp only at found
  split at found
  · cases found
    rw [← replaceDotSegments_getLast path]
    rcases stripDotSlash_cases (replaceDotSegments path) with same | shape
    · rw [same]
    · conv => rhs; rw [shape]
      obtain ⟨front, last, tail⟩ := (eq_nil_or_concat' (stripDotSlash (replaceDotSegments path))).resolve_left some_
      rw [tail, List.getLast?_concat, ← cons_append, ← cons_append, List.getLast?_concat]
  · cases found

theorem simple_slashed (slashed : Slashed path) (found : simpleNormalizePath path = some simple) : Slashed simple := by
  unfold simpleNormalizePath at found
  split at found
  · cases found
    exact slashed
  dsimp only at found
  split at found
  · cases found
    intro inside
    refine slashed (mem_replaceDotSegments ?_)
    rcases stripDotSlash_cases (replaceDotSegments path) with same | shape
    · rwa [same] at inside
    · rw [shape]
      exact mem_cons_of_mem _ (mem_cons_of_mem _ inside)
  · cases found

theorem normalized_getLast (slashed : Slashed path) (last : (normalized path).getLast? = some '/') :
    normalized path = rootOf path := by
  have empty : join [] = [] := rfl
  by_cases none : reducedOf path = []
  · rw [normalized, none, empty, append_nil]
  · have open_ := hasTrailingDirectorySeparator_join (rootOf path) (reducedOf_proper slashed) none
    have trailing : hasTrailingDirectorySeparator (normalized path) = true := hasTrailingDirectorySeparator_of_getLast last
    rw [normalized, open_] at trailing
    cases trailing

theorem simple_components (slashed : Slashed path) (found : simpleNormalizePath path = some simple)
    (some_ : simple = [] → path = []) : simple = normalizeByComponents path := by
  have slashed' := simple_slashed slashed found
  have fine := simple_fine found
  have ends : simple.getLast? = path.getLast? := by
    by_cases none : simple = []
    · rw [none, some_ none]
    · exact simple_getLast found none
  have trailing : hasTrailingDirectorySeparator path = hasTrailingDirectorySeparator simple := by
    unfold hasTrailingDirectorySeparator
    rw [ends]
  rw [normalizeByComponents_eq slashed, trailing]
  by_cases bare : BareRoot path
  · have same := simple_of_bare slashed bare found
    rw [same, normalized_eq_nil_root bare.1]
    cases hasTrailingDirectorySeparator path with
    | true => rfl
    | false => rfl
  have result := simple_finish slashed bare found
  unfold finish at result
  cases last : hasTrailingDirectorySeparator simple with
  | true =>
    obtain ⟨front, shape⟩ : ∃ front, simple = front ++ ['/'] :=
      ⟨_, (dropLast_append_getLast? _ ((trailing_iff slashed').mp last)).symm⟩
    have open_ : hasTrailingDirectorySeparator front = false := by
      by_contra again
      have slashedFront : Slashed front := fun inside => slashed' (shape ▸ mem_append_left _ inside)
      have lastFront := (trailing_iff slashedFront).mp (by simpa using again)
      have double : simple = front.dropLast ++ '/' :: '/' :: [] := by
        rw [shape]
        conv => lhs; rw [← dropLast_append_getLast? _ lastFront]
        simp
      exact single_of_fine fine ⟨_, _, double⟩
    split at result
    · rw [removeTrailingDirectorySeparator, if_pos last, shape, dropLast_concat] at result
      rw [← result, open_, shape]
      rfl
    · have kept : ensureTrailingDirectorySeparator simple = simple := if_pos last
      rw [kept, ite_self] at result
      rw [← result, last]
      rfl
  | false =>
    have kept : removeTrailingDirectorySeparator simple = simple := by
      unfold removeTrailingDirectorySeparator
      rw [last]
      rfl
    rw [kept] at result
    split at result
    · exact result
    split at result
    · rename_i whole
      -- Only a root alone could be as long as the root, and lack the separator.
      have added : ensureTrailingDirectorySeparator simple = simple ++ ['/'] := by
        unfold ensureTrailingDirectorySeparator
        rw [last]
        rfl
      rw [added] at result
      have root := normalized_getLast slashed (by rw [← result]; exact List.getLast?_concat)
      have size := congrArg bytes (result.trans root)
      rw [bytes_append, whole.1, bytes_cons, bytes_nil] at size
      have positive := Char.utf8Size_pos '/'
      omega
    · exact result
end

section
variable {path : Text}

theorem slashed_normalizeByComponents (slashed : Slashed path) : Slashed (normalizeByComponents path) := by
  have inside := slashed_normalized slashed
  rw [normalizeByComponents_eq slashed]
  split
  · intro listed
    rcases mem_append.mp listed with here | last
    · exact inside here
    · exact absurd (mem_singleton.mp last) (by decide)
  · exact inside

theorem afterRoot_slash (root : rootOf (path ++ ['/']) = rootOf path) : afterRoot (path ++ ['/']) = afterRoot path ++ ['/'] := by
  have shape : path ++ ['/'] = rootOf path ++ (afterRoot path ++ ['/']) := by
    rw [← append_assoc, rootOf_append_afterRoot]
  conv => lhs; rw [shape]
  refine afterRoot_eq ?_
  rw [← shape, root]

theorem normalized_slash (slashed : Slashed path) (last : path.getLast? ≠ some '/') (same : normalized path = path) :
    normalized (path ++ ['/']) = path ∨ normalized (path ++ ['/']) = path ++ ['/'] := by
  rcases rootOf_slash slashed last with root | whole
  · have reduced : reducedOf (path ++ ['/']) = reducedOf path := by
      unfold reducedOf
      rw [root, afterRoot_slash root, reduceText_append, reduceText_nil]
    rw [normalized, root, reduced]
    exact .inl same
  · exact .inr (normalized_eq_nil_root whole)

theorem normalizeByComponents_again (slashed : Slashed path) :
    normalizeByComponents (normalizeByComponents path) = normalizeByComponents path := by
  rw [normalizeByComponents_eq (slashed_normalizeByComponents slashed), normalizeByComponents_eq slashed]
  have inside := slashed_normalized slashed
  have again := normalized_normalized slashed
  split
  · rename_i added
    obtain ⟨-, open_⟩ := Bool.and_eq_true_iff.mp added
    have last : (normalized path).getLast? ≠ some '/' := by
      intro slash
      rw [hasTrailingDirectorySeparator_of_getLast slash] at open_
      cases open_
    have trailing : hasTrailingDirectorySeparator (normalized path ++ ['/']) = true :=
      hasTrailingDirectorySeparator_of_getLast List.getLast?_concat
    rcases normalized_slash inside last again with same | same
    · rw [same, trailing, open_]
      rfl
    · rw [same, trailing]
      rfl
  · rw [again, Bool.and_not_self, if_neg Bool.false_ne_true]

theorem normalized_of_nothing (slashed : Slashed path) (found : simpleNormalizePath path = some []) : normalized path = [] := by
  by_cases bare : BareRoot path
  · exact absurd (simple_of_bare slashed bare found).symm bare.2.1
  · have result := simple_finish slashed bare found
    unfold finish at result
    rw [bytes_nil, if_neg (Nat.not_lt_zero _), if_neg fun both => both.2 both.1.symm] at result
    exact result.symm

theorem normalizePath_of_fixed (slashed : Slashed path) (fixed : normalizeByComponents path = path) :
    normalizePath path = path := by
  rw [normalizePath_eq, normalizeSlashes_of_slashed slashed]
  cases found : simpleNormalizePath path with
  | none => exact fixed
  | some simple =>
    refine (simple_components slashed found ?_).trans fixed
    rintro rfl
    by_contra some_
    rw [normalizeByComponents_eq slashed, normalized_of_nothing slashed found] at fixed
    split at fixed
    · rw [← fixed] at found
      exact absurd found (by decide)
    · exact some_ fixed.symm

theorem normalizePath_fixed (path : Text) : Slashed (normalizePath path) ∧
    normalizeByComponents (normalizePath path) = normalizePath path := by
  have slashed := slashed_normalizeSlashes path
  rw [normalizePath_eq]
  cases found : simpleNormalizePath (normalizeSlashes path) with
  | none => exact ⟨slashed_normalizeByComponents slashed, normalizeByComponents_again slashed⟩
  | some simple =>
    have slashed' := simple_slashed slashed found
    have again : simpleNormalizePath simple = some simple := by
      unfold simpleNormalizePath
      rw [simple_fine found]
      rfl
    exact ⟨slashed', (simple_components slashed' again id).symm⟩
end

section
variable {path : Text}

/-- After the root no segment is empty or a dot, and only a relative path goes up, at its start. -/
structure InNormalForm (path : Text) : Prop where
  solid : ∀ segment ∈ (pathComponents path).tail, segment ≠ [] ∧ segment ≠ ['.']
  leading : Leading (rootOf path) (pathComponents path).tail

theorem inNormalForm_of_components {components : List Text} (proper : ∀ c ∈ components, Proper c)
    (leading : Leading (rootOf path) components)
    (rest : afterRoot path = join components ∨ afterRoot path = lead components) : InNormalForm path := by
  have segments : (pathComponents path).tail = components := by
    unfold pathComponents
    rw [tail_cons]
    by_cases none : components = []
    · have empty : afterRoot path = [] := by
        rw [none] at rest
        exact rest.elim id id
      rw [empty, none]
      rfl
    have pieces : (join components).splitOn '/' = components :=
      splitOn_intercalate '/' (fun c listed => (proper c listed).free) none
    rcases rest with rest | rest
    · rw [rest, pieces, if_neg]
      intro last
      exact (proper [] (mem_of_getLast? last)).filled rfl
    · rw [rest, lead, if_neg none, splitOn_append_cons_self, pieces, splitOn_nil, List.getLast?_concat, if_pos rfl,
        dropLast_concat]
  refine ⟨fun segment listed => ?_, by rw [segments]; exact leading⟩
  rw [segments] at listed
  exact ⟨(proper segment listed).filled, (proper segment listed).notDot⟩

theorem afterRoot_fixed (same : normalized path = path) : afterRoot path = join (reducedOf path) := by
  have cut := rootOf_append_afterRoot path
  conv at cut => rhs; rw [← same, normalized]
  exact append_cancel_left cut

theorem inNormalForm_of_normalized (slashed : Slashed path) (same : normalized path = path) : InNormalForm path :=
  inNormalForm_of_components (reducedOf_proper slashed) (leading_reducedOf path) (.inl (afterRoot_fixed same))

theorem inNormalForm_slash (slashed : Slashed path) (same : normalized path = path) (last : path.getLast? ≠ some '/') :
    InNormalForm (path ++ ['/']) := by
  have rest := afterRoot_fixed same
  rcases rootOf_slash slashed last with root | whole
  · have leading := leading_reducedOf path
    by_cases none : reducedOf path = []
    · have bare : rootOf path = path := by
        have cut := rootOf_append_afterRoot path
        rw [rest, none] at cut
        exact (append_nil _).symm.trans cut
      have slashed' : Slashed (path ++ ['/']) := by
        intro listed
        rcases mem_append.mp listed with here | last
        · exact slashed here
        · exact absurd (mem_singleton.mp last) (by decide)
      rcases rootOf_trailing slashed' with nothing | whole | trailing
      · rw [root, bare] at nothing
        rw [nothing] at root
        exact absurd root (by decide)
      · rw [root, bare] at whole
        exact absurd whole (by simp)
      · rw [root, bare] at trailing
        exact absurd trailing last
    · refine inNormalForm_of_components (reducedOf_proper slashed) (by rw [root]; exact leading) (.inr ?_)
      rw [afterRoot_slash root, rest, lead, if_neg none]
  · have none : afterRoot (path ++ ['/']) = [] := by
      unfold afterRoot
      rw [whole, drop_length]
    exact inNormalForm_of_components (by simp) ⟨0, [], rfl, by simp, fun _ => rfl⟩ (.inl none)

theorem inNormalForm_of_fixed (slashed : Slashed path) (fixed : normalizeByComponents path = path) : InNormalForm path := by
  rw [normalizeByComponents_eq slashed] at fixed
  split at fixed
  · rename_i added
    obtain ⟨-, open_⟩ := Bool.and_eq_true_iff.mp added
    rw [← fixed]
    refine inNormalForm_slash (slashed_normalized slashed) (normalized_normalized slashed) fun slash => ?_
    rw [hasTrailingDirectorySeparator_of_getLast slash] at open_
    cases open_
  · exact inNormalForm_of_normalized slashed fixed
end

section
variable {path : Text}

theorem rootOf_onwards {front : Text} (rooted : rootOf (front ++ ['/']) ≠ []) (more : Text) :
    rootOf (front ++ '/' :: more) ≠ [] := by
  by_cases url : (findScheme (front ++ ['/'])).isSome = true
  · obtain ⟨⟨scheme, rest⟩, found⟩ := Option.isSome_iff_exists.mp url
    have shape := findScheme_eq found
    have whole : front ++ '/' :: more = scheme ++ "://".toList ++ (rest ++ more) := by
      rw [← append_assoc, ← shape]
      simp
    refine rootOf_ne_nil_of_scheme ?_
    rw [whole, findScheme_append (shape ▸ found)]
    rfl
  have plain : urlRootOf (front ++ ['/']) = ([], false) := by
    have none : findScheme (front ++ ['/']) = none := by simpa using url
    unfold urlRootOf
    rw [none]
  unfold rootOf at rooted ⊢
  match front with
  | [] => exact rootOf_ne_nil_of_separator rfl more
  | [c] =>
    rw [singleton_append] at plain rooted
    rw [singleton_append]
    rw [encodedRoot_two, plain] at rooted
    by_cases separator : isAnyDirectorySeparator c = true
    · exact rootOf_ne_nil_of_separator separator ('/' :: more)
    rw [encodedRoot_two]
    rw [if_neg separator, if_neg fun volume => absurd volume.2 (by decide)] at rooted ⊢
    split at rooted
    · rename_i caret
      rw [if_pos caret]
      simp
    · exact absurd rfl rooted
  | c :: d :: rest =>
    rw [cons_append, cons_append] at plain rooted ⊢
    rw [encodedRoot_two, plain] at rooted
    by_cases separator : isAnyDirectorySeparator c = true
    · exact rootOf_ne_nil_of_separator separator _
    rw [encodedRoot_two]
    rw [if_neg separator] at rooted ⊢
    by_cases volume : isVolumeCharacter c = true ∧ d = ':'
    · rw [if_pos volume] at rooted ⊢
      cases rest with
      | nil => simp [isAnyDirectorySeparator]
      | cons s rest =>
        rw [cons_append] at rooted ⊢
        dsimp only at rooted ⊢
        split at rooted
        · rename_i drive
          rw [if_pos drive]
          simp
        · exact absurd (congrArg Prod.fst plain) rooted
    · rw [if_neg volume] at rooted ⊢
      split at rooted
      · rename_i caret
        rw [if_pos caret]
        simp
      · exact absurd rfl rooted

theorem rootOf_combineOne (slashed : Slashed path) (rooted : rootOf path ≠ []) (trailingPath : Text) :
    rootOf (combineOne path trailingPath) ≠ [] := by
  unfold combineOne
  split
  · exact rooted
  dsimp only
  split
  · rename_i absolute
    rcases absolute with none | length
    · rw [none] at rooted
      exact absurd rfl rooted
    · intro none
      exact length (by rw [getRootLength_eq, none, bytes_nil])
  split
  · rename_i trailing
    obtain ⟨front, shape⟩ : ∃ front, path = front ++ ['/'] :=
      ⟨_, (dropLast_append_getLast? _ ((trailing_iff slashed).mp trailing)).symm⟩
    rw [shape] at rooted ⊢
    rw [append_assoc]
    exact rootOf_onwards rooted _
  rename_i open_
  rw [append_assoc]
  refine rootOf_onwards ?_ _
  rcases rootOf_slash slashed fun last => open_ ((trailing_iff slashed).mpr last) with same | whole
  · rwa [same]
  · rw [whole]
    simp

theorem absoluteFileName_rooted {fileName currentDirectory : Text}
    (rooted : rootOf fileName ≠ [] ∨ rootOf currentDirectory ≠ []) : rootOf (absoluteFileName fileName currentDirectory) ≠ [] := by
  unfold absoluteFileName
  split
  · rename_i relative
    rcases rooted with absolute | absolute
    · rw [getRootLength_eq] at relative
      exact absurd relative.1 (bytes_pos absolute).ne'
    · exact rootOf_combineOne (slashed_normalizeSlashes _) (rootOf_normalizeSlashes absolute) fileName
  rename_i absolute
  rcases rooted with here | directory
  · exact rootOf_normalizeSlashes here
  rw [getRootLength_eq] at absolute
  have here : rootOf fileName ≠ [] := by
    intro none
    refine absolute ⟨by rw [none, bytes_nil], ?_⟩
    rintro rfl
    exact directory rfl
  exact rootOf_normalizeSlashes here

theorem normalized_rooted (slashed : Slashed path) (rooted : rootOf path ≠ []) (currentDirectory : Text) :
    getNormalizedAbsolutePath (normalized path) currentDirectory = normalized path := by
  obtain ⟨absolute, again⟩ := normalized_again slashed rooted
  have positive := bytes_pos absolute
  rw [getNormalizedAbsolutePath_eq, absoluteFileName, getRootLength_eq, if_neg fun both => positive.ne' both.1,
    normalizeSlashes_of_slashed (slashed_normalized slashed), again]
end

/-- Normalization gives normal forms, which it leaves as they are, and its quick way gives the same ones, unless nothing
is left of the path. -/
theorem normalization_normalForm (path fileName currentDirectory : Text) :
    normalizePath (normalizePath path) = normalizePath path ∧ InNormalForm (normalizePath path) ∧
      getNormalizedAbsolutePath (getNormalizedAbsolutePath fileName currentDirectory) [] =
        getNormalizedAbsolutePath fileName currentDirectory ∧
      (0 < getRootLength fileName ∨ 0 < getRootLength currentDirectory →
        getNormalizedAbsolutePath (getNormalizedAbsolutePath fileName currentDirectory) currentDirectory =
          getNormalizedAbsolutePath fileName currentDirectory) ∧
      InNormalForm (getNormalizedAbsolutePath fileName currentDirectory) ∧
      ∀ simple, simpleNormalizePath (normalizeSlashes path) = some simple → (simple = [] → path = []) →
        simple = normalizeByComponents (normalizeSlashes path) := by
  obtain ⟨slashed, fixed⟩ := normalizePath_fixed path
  have slashed' := slashed_absoluteFileName fileName currentDirectory
  have absolute : 0 < getRootLength fileName ∨ 0 < getRootLength currentDirectory →
      rootOf (absoluteFileName fileName currentDirectory) ≠ [] := by
    rw [getRootLength_eq, getRootLength_eq]
    intro positive
    refine absoluteFileName_rooted (positive.imp ?_ ?_)
    · intro positive none
      rw [none, bytes_nil] at positive
      exact Nat.lt_irrefl 0 positive
    · intro positive none
      rw [none, bytes_nil] at positive
      exact Nat.lt_irrefl 0 positive
  rw [getNormalizedAbsolutePath_eq fileName]
  have inside := slashed_normalized slashed'
  have again := normalized_normalized slashed'
  refine ⟨normalizePath_of_fixed slashed fixed, inNormalForm_of_fixed slashed fixed, ?_, ?_,
    inNormalForm_of_normalized inside again, ?_⟩
  · rw [getNormalizedAbsolutePath_eq, absoluteFileName_target, normalizeSlashes_of_slashed inside, again]
  · intro rooted
    exact normalized_rooted slashed' (absolute rooted) currentDirectory
  · intro simple found empty
    refine simple_components (slashed_normalizeSlashes path) found fun none => ?_
    rw [empty none]
    rfl

theorem normalization_normalForm_dots :
    getNormalizedAbsolutePath (getNormalizedAbsolutePath "../c".toList "/d".toList) "/d".toList = "/c".toList ∧
      "/a/b".toList = normalizeByComponents "/a/./b".toList := by
  obtain ⟨-, -, -, again, -, quick⟩ := normalization_normalForm "/a/./b".toList "../c".toList "/d".toList
  exact ⟨(again (.inr (by decide))).trans (by decide), quick "/a/b".toList (by decide) (by decide)⟩

/-- In a relative directory a path moves on each time; the quick way and the components differ on a dot. -/
theorem normalization_again :
    getNormalizedAbsolutePath (getNormalizedAbsolutePath ['a'] ['b']) ['b'] ≠ getNormalizedAbsolutePath ['a'] ['b'] ∧
      simpleNormalizePath "./".toList = some [] ∧ normalizeByComponents "./".toList = ['/'] := by
  decide

end TypeScriptRs.Paths
