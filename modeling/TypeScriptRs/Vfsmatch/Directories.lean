import TypeScriptRs.Vfsmatch.Letters

/-! The directories of a walk: their paths, and the names that they are remembered by. -/
namespace TypeScriptRs.Vfsmatch
open Machine Utf8 List

structure IsName (name : Text) : Prop where
  filled : name ≠ []
  slash : '/' ∉ name
  backslash : '\\' ∉ name
  dot : name ≠ ['.']
  up : name ≠ ['.', '.']

def join (names : List Text) : Text := ['/'].intercalate names

/-- Normalized paths of directories: a root, or names below one. -/
def Solid (path : Text) : Prop := ∃ front names, path = front ++ join names ∧ (∀ n ∈ names, IsName n) ∧
  (front = ['/'] ∨ (names ≠ [] ∧ (front = [] ∨ front = ['/', '/'])))

section
variable {path name : Text} {names : List Text}

def slashes (path : Text) : Text := path.map fun c => if c = '\\' then '/' else c

def rootedAs (path joined : Text) : Text :=
  if ['/', '/'].isPrefixOf path && !(['/', '/', '/'].isPrefixOf path) then '/' :: '/' :: joined
  else if path.head? = some '/' then '/' :: joined
  else if joined = [] then ['.']
  else joined

theorem normalizePath_eq (path : Text) : normalizePath path =
    rootedAs (slashes path) (join (((slashes path).splitOn '/').foldl normalizeStep [])) := rfl

theorem slashes_of_free (free : '\\' ∉ path) : slashes path = path := by
  conv => rhs; rw [← map_id path]
  refine map_congr_left fun c listed => if_neg ?_
  rintro rfl
  exact free listed

theorem normalizeStep_name (result : List Text) (proper : IsName name) : normalizeStep result name = result ++ [name] := by
  unfold normalizeStep
  rw [if_neg (by simp [proper.filled, proper.dot]), if_neg proper.up]

theorem foldl_normalizeStep_names (result names : List Text) (proper : ∀ n ∈ names, IsName n) :
    names.foldl normalizeStep result = result ++ names := by
  induction names generalizing result with
  | nil => simp
  | cons name names ih =>
    rw [foldl_cons, normalizeStep_name result (proper name (by simp)),
      ih _ fun n listed => proper n (mem_cons_of_mem _ listed)]
    simp

theorem splitOn_join (proper : ∀ n ∈ names, IsName n) (some_ : names ≠ []) : (join names).splitOn '/' = names :=
  splitOn_intercalate '/' (fun n listed => (proper n listed).slash) some_

theorem join_head (proper : ∀ n ∈ names, IsName n) : (join names).head? ≠ some '/' := by
  cases names with
  | nil => simp [join]
  | cons name names =>
    obtain ⟨c, rest, shape⟩ := exists_cons_of_ne_nil (proper name (by simp)).filled
    have free := (proper name (by simp)).slash
    have first : c ≠ '/' := by
      rintro rfl
      exact free (by rw [shape]; simp)
    have head : (join (name :: names)).head? = some c := by
      cases names with
      | nil =>
        have single : join [name] = name := intercalate_singleton
        rw [single, shape]
        rfl
      | cons second names =>
        have cut : join (name :: second :: names) = name ++ '/' :: join (second :: names) :=
          Split.intercalate_cons name (cons_ne_nil _ _)
        rw [cut, shape]
        rfl
    rw [head]
    exact fun same => first (Option.some.inj same)

theorem join_backslash (proper : ∀ n ∈ names, IsName n) : '\\' ∉ join names := by
  intro listed
  rcases Split.mem_intercalate listed with same | ⟨name, member, inside⟩
  · exact absurd same (by decide)
  · exact (proper name member).backslash inside

theorem normalizePath_join {front : Text} {names : List Text} (proper : ∀ n ∈ names, IsName n) (some_ : names ≠ [])
    (root : front = [] ∨ front = ['/'] ∨ front = ['/', '/']) : normalizePath (front ++ join names) = front ++ join names := by
  have head := join_head proper
  have pieces := splitOn_join proper some_
  have filled : join names ≠ [] := by
    obtain ⟨name, names, rfl⟩ := exists_cons_of_ne_nil some_
    obtain ⟨c, rest, shape⟩ := exists_cons_of_ne_nil (proper name (by simp)).filled
    have member : c ∈ name := by
      rw [shape]
      simp
    have inside : c ∈ join (name :: names) := Split.mem_intercalate_of_mem (by simp) member
    exact ne_nil_of_mem inside
  have plain : slashes (front ++ join names) = front ++ join names := by
    refine slashes_of_free fun listed => ?_
    rcases mem_append.mp listed with old | new
    · rcases root with rfl | rfl | rfl
      · cases old
      · exact absurd old (by decide)
      · exact absurd old (by decide)
    · exact join_backslash proper new
  have folded : ((front ++ join names).splitOn '/').foldl normalizeStep [] = names := by
    have cut : ∀ text : Text, ([] ++ '/' :: text).splitOn '/' = [] :: text.splitOn '/' :=
      fun text => Split.splitOn_append_free (by simp) text
    simp only [nil_append] at cut
    have whole := foldl_normalizeStep_names [] names proper
    rcases root with rfl | rfl | rfl
    · rw [nil_append, pieces, whole, nil_append]
    · rw [singleton_append, cut, pieces, foldl_cons]
      exact whole
    · rw [cons_append, singleton_append, cut, cut, pieces, foldl_cons, foldl_cons]
      exact whole
  obtain ⟨c, rest, shape⟩ := exists_cons_of_ne_nil filled
  have first : c ≠ '/' := by
    rintro rfl
    exact head (by rw [shape]; rfl)
  rw [normalizePath_eq, plain, folded, rootedAs, shape]
  rcases root with rfl | rfl | rfl
  · simp [first.symm, first]
  · simp [first.symm]
  · simp [first.symm]

theorem trimEndSlashes_of_last (last : path.getLast? ≠ some '/') : trimEndSlashes path = path := by
  unfold trimEndSlashes
  rw [List.getLast?_eq_head?_reverse] at last
  cases shape : path.reverse with
  | nil =>
    rw [reverse_eq_nil_iff.mp shape]
    rfl
  | cons c rest =>
    rw [shape] at last
    have other : c ≠ '/' := fun same => last (congrArg some same)
    rw [dropWhile_cons_of_neg (by simpa using other), ← shape, reverse_reverse]

theorem join_concat (some_ : names ≠ []) (name : Text) :
    join (names ++ [name]) = join names ++ '/' :: name := Split.intercalate_concat some_ name

theorem join_last (proper : ∀ n ∈ names, IsName n) (some_ : names ≠ []) (front : Text) :
    (front ++ join names).getLast? ≠ some '/' ∧ front ++ join names ≠ [] := by
  obtain ⟨rest, last, rfl⟩ := (eq_nil_or_concat' names).resolve_left some_
  have lastProper := proper last (by simp)
  have shape : ∃ before, front ++ join (rest ++ [last]) = before ++ last := by
    by_cases none : rest = []
    · have single : join [last] = last := intercalate_singleton
      exact ⟨front, by rw [none, nil_append, single]⟩
    · exact ⟨front ++ join rest ++ ['/'], by rw [join_concat none]; simp⟩
  obtain ⟨before, shape⟩ := shape
  rw [shape, List.getLast?_append, List.getLast?_eq_getLast_of_ne_nil lastProper.filled]
  constructor
  · intro same
    have slash : last.getLast lastProper.filled = '/' := by simpa using same
    exact lastProper.slash (slash ▸ getLast_mem lastProper.filled)
  · intro none
    exact lastProper.filled (append_eq_nil_iff.mp none).2

def enter (path name : Text) : Text := ensureTrailingSlash path ++ name

theorem isRootedDiskPath_name (proper : IsName name) : isRootedDiskPath name = false := by
  unfold isRootedDiskPath
  split
  · exact absurd (by simp) proper.slash
  · exact absurd (by simp) proper.slash
  · rfl

theorem enter_join (each : ∀ n ∈ names, IsName n) (some_ : names ≠ []) (front name : Text) :
    enter (front ++ join names) name = front ++ join (names ++ [name]) := by
  obtain ⟨last, filled⟩ := join_last each some_ front
  unfold enter ensureTrailingSlash
  rw [if_pos ⟨filled, last⟩, join_concat some_]
  simp

theorem Solid.enter (solid : Solid path) (proper : IsName name) :
    Solid (enter path name) ∧ combinePaths path name = Vfsmatch.enter path name := by
  obtain ⟨front, names, rfl, each, root⟩ := solid
  have all : ∀ n ∈ names ++ [name], IsName n := by
    intro n listed
    rcases mem_append.mp listed with old | new
    · exact each n old
    · rw [mem_singleton.mp new]
      exact proper
  have step : combinePaths (front ++ join names) name =
      normalizePath (trimEndSlashes (front ++ join names) ++ '/' :: name) := by
    unfold combinePaths
    rw [if_neg proper.filled, isRootedDiskPath_name proper, if_neg Bool.false_ne_true]
  by_cases none : names = []
  · have slash : front = ['/'] := by
      rcases root with slash | ⟨some_, -⟩
      · exact slash
      · exact absurd none some_
    have single : join [name] = name := intercalate_singleton
    have whole : Vfsmatch.enter (front ++ join names) name = ['/'] ++ join [name] := by
      rw [none, slash, single]
      rfl
    have trimmed : trimEndSlashes (front ++ join names) ++ '/' :: name = ['/'] ++ join [name] := by
      rw [none, slash, single]
      rfl
    have each' : ∀ n ∈ [name], IsName n := by simpa using proper
    refine ⟨⟨['/'], [name], whole, each', .inl rfl⟩, ?_⟩
    rw [step, trimmed, whole, normalizePath_join each' (by simp) (.inr (.inl rfl))]
  · obtain ⟨last, -⟩ := join_last each none front
    have whole := enter_join each none front name
    have trimmed : trimEndSlashes (front ++ join names) ++ '/' :: name = front ++ join (names ++ [name]) := by
      rw [trimEndSlashes_of_last last, join_concat none, append_assoc]
    have root' : front = [] ∨ front = ['/'] ∨ front = ['/', '/'] := by
      rcases root with slash | ⟨-, none | network⟩
      · exact .inr (.inl slash)
      · exact .inl none
      · exact .inr (.inr network)
    refine ⟨⟨front, names ++ [name], whole, all, ?_⟩, ?_⟩
    · exact root.imp_right fun other => ⟨by simp, other.2⟩
    · rw [step, trimmed, whole, normalizePath_join all (by simp) root']

theorem slashes_backslash (path : Text) : '\\' ∉ slashes path := by
  intro listed
  obtain ⟨c, -, same⟩ := mem_map.mp listed
  split at same
  · exact absurd same (by decide)
  · rename_i other
    exact other same

theorem normalizeStep_names {result : List Text} (proper : ∀ n ∈ result, IsName n) {part : Text} (slash : '/' ∉ part)
    (backslash : '\\' ∉ part) : ∀ n ∈ normalizeStep result part, IsName n := by
  unfold normalizeStep
  split
  · exact proper
  rename_i kept
  split
  · exact fun n listed => proper n (dropLast_subset _ listed)
  rename_i up
  intro n listed
  rcases mem_append.mp listed with old | new
  · exact proper n old
  · rw [mem_singleton.mp new]
    exact ⟨fun none => kept (.inl none), slash, backslash, fun dot => kept (.inr dot), up⟩

theorem foldl_normalizeStep_isName (parts : List Text) : ∀ result, (∀ n ∈ result, IsName n) →
    (∀ part ∈ parts, '/' ∉ part ∧ '\\' ∉ part) → ∀ n ∈ parts.foldl normalizeStep result, IsName n := by
  induction parts with
  | nil => exact fun result proper _ => proper
  | cons part parts ih =>
    intro result proper free
    have here := free part (by simp)
    exact ih _ (normalizeStep_names proper here.1 here.2) fun p listed => free p (mem_cons_of_mem _ listed)

/-- Neither the current directory, which no file system takes for a path, nor a network root without a server. -/
def IsGrounded (path : Text) : Prop := path ≠ ['.'] ∧ path ≠ ['/', '/']

def namesOf (path : Text) : List Text := ((slashes path).splitOn '/').foldl normalizeStep []

theorem normalizePath_names (path : Text) : normalizePath path = rootedAs (slashes path) (join (namesOf path)) := rfl

theorem namesOf_isName (path : Text) : ∀ name ∈ namesOf path, IsName name := by
  refine foldl_normalizeStep_isName _ [] (by simp) fun part listed => ?_
  exact ⟨Split.not_mem_of_mem_splitOn listed, fun inside => slashes_backslash path (Split.mem_of_mem_splitOn listed inside)⟩

theorem solid_normalizePath (absolute : IsGrounded (normalizePath path)) : Solid (normalizePath path) := by
  have proper := namesOf_isName path
  rw [normalizePath_names] at absolute ⊢
  generalize namesOf path = names at absolute proper ⊢
  unfold rootedAs at absolute ⊢
  split
  · rename_i network
    rw [if_pos network] at absolute
    refine ⟨['/', '/'], names, rfl, proper, .inr ⟨?_, .inr rfl⟩⟩
    rintro rfl
    exact absolute.2 rfl
  rename_i other
  rw [if_neg other] at absolute
  split
  · exact ⟨['/'], names, rfl, proper, .inl rfl⟩
  rename_i unrooted
  rw [if_neg unrooted] at absolute
  split
  · rename_i none
    rw [if_pos none] at absolute
    exact absurd rfl absolute.1
  · rename_i some_
    refine ⟨[], names, rfl, proper, .inr ⟨?_, .inl rfl⟩⟩
    rintro rfl
    exact some_ rfl
end

theorem lowercase_append (a b : Text) : toAsciiLowercase (a ++ b) = toAsciiLowercase a ++ toAsciiLowercase b :=
  map_append

theorem slashes_lowercase (path : Text) : slashes (toAsciiLowercase path) = toAsciiLowercase (slashes path) := by
  unfold slashes toAsciiLowercase
  rw [map_map, map_map]
  refine map_congr_left fun c _ => ?_
  have mark := toLower_backslash c
  by_cases back : c = '\\'
  · simp [back]
  · have other : c.toLower ≠ '\\' := fun same => back (mark.mp same)
    simp [back, other]

theorem lowercase_eq_iff {marks : Text} (each : ∀ x ∈ marks, ∀ c : Char, c.toLower = x ↔ c = x) (text : Text) :
    toAsciiLowercase text = marks ↔ text = marks := by
  induction marks generalizing text with
  | nil => exact map_eq_nil_iff
  | cons x marks ih =>
    cases text with
    | nil => exact iff_of_false (by simp [toAsciiLowercase]) (by simp)
    | cons c text =>
      have shape : toAsciiLowercase (c :: text) = c.toLower :: toAsciiLowercase text := rfl
      rw [shape, cons_eq_cons, cons_eq_cons, each x (by simp) c,
        ih fun y listed => each y (mem_cons_of_mem _ listed)]

theorem normalizeStep_lowercase (result : List Text) (part : Text) :
    normalizeStep (result.map toAsciiLowercase) (toAsciiLowercase part) = (normalizeStep result part).map toAsciiLowercase := by
  have none : toAsciiLowercase part = [] ↔ part = [] := lowercase_eq_iff (by simp) part
  have dot : toAsciiLowercase part = ['.'] ↔ part = ['.'] := lowercase_eq_iff (by simpa using toLower_dot) part
  have up : toAsciiLowercase part = ['.', '.'] ↔ part = ['.', '.'] := lowercase_eq_iff (by simpa using toLower_dot) part
  unfold normalizeStep
  rw [if_congr (or_congr none dot) rfl rfl, if_congr up rfl rfl]
  split
  · rfl
  · split
    · exact map_dropLast.symm
    · simp

theorem foldl_normalizeStep_lowercase (parts : List Text) : ∀ result,
    (parts.map toAsciiLowercase).foldl normalizeStep (result.map toAsciiLowercase) =
      (parts.foldl normalizeStep result).map toAsciiLowercase := by
  induction parts with
  | nil => exact fun _ => rfl
  | cons part parts ih =>
    intro result
    rw [map_cons, foldl_cons, foldl_cons, normalizeStep_lowercase, ih]

theorem join_lowercase (names : List Text) : join (names.map toAsciiLowercase) = toAsciiLowercase (join names) := by
  induction names with
  | nil => rfl
  | cons name names ih =>
    cases names with
    | nil =>
      have single : ∀ name, join [name] = name := fun _ => intercalate_singleton
      rw [map_cons, map_nil, single, single]
    | cons second names =>
      have cut : ∀ name second : Text, ∀ names, join (name :: second :: names) = name ++ '/' :: join (second :: names) :=
        fun name _ _ => Split.intercalate_cons name (cons_ne_nil _ _)
      rw [map_cons, map_cons, cut, ← map_cons, ih, cut, lowercase_append]
      rfl

theorem isPrefixOf_lowercase {marks : Text} (each : ∀ x ∈ marks, ∀ c : Char, c.toLower = x ↔ c = x) (text : Text) :
    marks.isPrefixOf (toAsciiLowercase text) = marks.isPrefixOf text := by
  induction marks generalizing text with
  | nil => simp
  | cons x marks ih =>
    cases text with
    | nil => rfl
    | cons c text =>
      have shape : toAsciiLowercase (c :: text) = c.toLower :: toAsciiLowercase text := rfl
      have same : (x == c.toLower) = (x == c) := by
        rw [Bool.eq_iff_iff, beq_iff_eq, beq_iff_eq, eq_comm, each x (by simp) c, eq_comm]
      rw [shape, isPrefixOf_cons_cons, isPrefixOf_cons_cons, same, ih fun y listed => each y (mem_cons_of_mem _ listed)]

theorem normalizePath_lowercase (path : Text) :
    normalizePath (toAsciiLowercase path) = toAsciiLowercase (normalizePath path) := by
  have slash : ∀ marks : Text, (∀ x ∈ marks, x = '/') → ∀ x ∈ marks, ∀ c : Char, c.toLower = x ↔ c = x := by
    intro marks all x listed
    rw [all x listed]
    exact toLower_slash
  have head := lowercase_head (slashes path) '/' toLower_slash
  have pieces : (toAsciiLowercase (slashes path)).splitOn '/' = ((slashes path).splitOn '/').map toAsciiLowercase :=
    Split.splitOn_map toLower_slash _
  have folded := foldl_normalizeStep_lowercase ((slashes path).splitOn '/') []
  rw [map_nil] at folded
  rw [normalizePath_eq, normalizePath_eq, slashes_lowercase, pieces, folded, join_lowercase]
  generalize join (((slashes path).splitOn '/').foldl normalizeStep []) = joined
  have none : toAsciiLowercase joined = [] ↔ joined = [] := lowercase_eq_iff (by simp) joined
  unfold rootedAs
  rw [isPrefixOf_lowercase (slash _ (by simp)), isPrefixOf_lowercase (slash _ (by simp)), if_congr head rfl rfl,
    if_congr none rfl rfl]
  split
  · rfl
  split
  · rfl
  · split
    · rfl
    · rfl

theorem trimEndSlashes_lowercase (path : Text) :
    trimEndSlashes (toAsciiLowercase path) = toAsciiLowercase (trimEndSlashes path) := by
  unfold trimEndSlashes toAsciiLowercase
  have kept : (fun c : Char => decide (c = '/')) ∘ Char.toLower = fun c => decide (c = '/') := by
    funext c
    exact decide_eq_decide.mpr (toLower_slash c)
  rw [← map_reverse, dropWhile_map, kept, map_reverse]

theorem ensureTrailingSlash_lowercase (path : Text) :
    ensureTrailingSlash (toAsciiLowercase path) = toAsciiLowercase (ensureTrailingSlash path) := by
  have none : toAsciiLowercase path = [] ↔ path = [] := lowercase_eq_iff (by simp) path
  have last : (toAsciiLowercase path).getLast? = some '/' ↔ path.getLast? = some '/' := by
    rw [List.getLast?_eq_head?_reverse, List.getLast?_eq_head?_reverse]
    have head := lowercase_head path.reverse '/' toLower_slash
    unfold toAsciiLowercase at head ⊢
    rwa [map_reverse] at head
  unfold ensureTrailingSlash
  rw [if_congr (and_congr (not_congr none) (not_congr last)) rfl rfl]
  split
  · rw [lowercase_append]
    rfl
  · rfl

variable {caseSensitive : Bool} {path path' : Text}
  (alike : canonicalFileName path caseSensitive = canonicalFileName path' caseSensitive)
include alike

theorem canonical_congr {f : Text → Text} (keeps : ∀ text, f (toAsciiLowercase text) = toAsciiLowercase (f text)) :
    canonicalFileName (f path) caseSensitive = canonicalFileName (f path') caseSensitive := by
  unfold canonicalFileName at alike ⊢
  cases caseSensitive with
  | true =>
    rw [if_pos rfl, if_pos rfl] at alike ⊢
    rw [alike]
  | false =>
    rw [if_neg Bool.false_ne_true, if_neg Bool.false_ne_true] at alike ⊢
    rw [← keeps, ← keeps, alike]

theorem canonical_ensureTrailingSlash : canonicalFileName (ensureTrailingSlash path) caseSensitive =
    canonicalFileName (ensureTrailingSlash path') caseSensitive :=
  canonical_congr alike ensureTrailingSlash_lowercase

theorem canonical_enter (name : Text) :
    canonicalFileName (enter path name) caseSensitive = canonicalFileName (enter path' name) caseSensitive := by
  have fronts := canonical_ensureTrailingSlash alike
  unfold enter canonicalFileName at *
  cases caseSensitive with
  | true =>
    rw [if_pos rfl, if_pos rfl] at fronts ⊢
    rw [fronts]
  | false =>
    rw [if_neg Bool.false_ne_true, if_neg Bool.false_ne_true] at fronts ⊢
    rw [lowercase_append, lowercase_append, fronts]

theorem canonical_combinePaths {name : Text} (solid : Solid path') (proper : IsName name) :
    canonicalFileName (combinePaths path name) caseSensitive = canonicalFileName (enter path' name) caseSensitive := by
  rw [← (solid.enter proper).2]
  unfold combinePaths
  rw [if_neg proper.filled, isRootedDiskPath_name proper, if_neg Bool.false_ne_true, if_neg proper.filled,
    if_neg Bool.false_ne_true]
  unfold canonicalFileName at *
  cases caseSensitive with
  | true =>
    rw [if_pos rfl, if_pos rfl] at alike ⊢
    rw [alike]
  | false =>
    rw [if_neg Bool.false_ne_true, if_neg Bool.false_ne_true] at alike ⊢
    rw [← normalizePath_lowercase, ← normalizePath_lowercase, lowercase_append, lowercase_append,
      ← trimEndSlashes_lowercase, ← trimEndSlashes_lowercase, alike]

end TypeScriptRs.Vfsmatch
