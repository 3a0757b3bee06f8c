import TypeScriptRs.Vfsmatch.Directories

/-! The paths that a walk spells, and the directories that they stand for, below a base path. -/
namespace TypeScriptRs.Vfsmatch
open Machine Utf8 List

theorem slashes_append (a b : Text) : slashes (a ++ b) = slashes a ++ slashes b := map_append

theorem slashes_name {name : Text} (proper : IsName name) : slashes name = name := slashes_of_free proper.backslash

theorem namesOf_slash (path : Text) : namesOf (path ++ ['/']) = namesOf path := by
  have cut : (slashes path ++ ['/']).splitOn '/' = (slashes path).splitOn '/' ++ [[]] := splitOn_append_cons_self _ _
  have none : ∀ names, normalizeStep names [] = names := fun names => if_pos (.inl rfl)
  unfold namesOf
  rw [slashes_append]
  have slash : slashes ['/'] = ['/'] := rfl
  rw [slash, cut, foldl_append, foldl_cons, foldl_nil, none]

theorem namesOf_name (path : Text) {name : Text} (proper : IsName name) : namesOf (path ++ '/' :: name) = namesOf path ++ [name] := by
  have cut : (slashes path ++ '/' :: name).splitOn '/' = (slashes path).splitOn '/' ++ [name] := by
    have rest : name.splitOn '/' = [name] := splitOn_eq_singleton proper.slash
    rw [splitOn_append_cons_self, rest]
  have whole : slashes (path ++ '/' :: name) = slashes path ++ '/' :: name := by
    rw [slashes_append]
    have head : slashes ('/' :: name) = '/' :: slashes name := rfl
    rw [head, slashes_name proper]
  unfold namesOf
  rw [whole, cut, foldl_append, foldl_cons, foldl_nil, normalizeStep_name _ proper]

theorem rootedAs_below {path : Text} (other : path ++ ['/'] ≠ ['/', '/']) {c : Char} (slash : c ≠ '/') (more joined : Text) :
    rootedAs (path ++ '/' :: c :: more) joined = rootedAs (path ++ ['/']) joined := by
  cases path with
  | nil => simp [rootedAs, List.isPrefixOf, Ne.symm slash]
  | cons a path =>
    cases path with
    | nil =>
      have first : a ≠ '/' := fun same => other (by rw [same]; rfl)
      simp [rootedAs, List.isPrefixOf, Ne.symm first]
    | cons b path => cases path <;> simp [rootedAs, List.isPrefixOf]

theorem rootedAs_slash {path : Text} (some_ : path ≠ []) (root : path ≠ ['/']) (network : path ≠ ['/', '/']) (joined : Text) :
    rootedAs (path ++ ['/']) joined = rootedAs path joined := by
  cases path with
  | nil => exact absurd rfl some_
  | cons a path =>
    cases path with
    | nil =>
      have first : a ≠ '/' := fun same => root (by rw [same])
      simp [rootedAs, List.isPrefixOf, Ne.symm first]
    | cons b path =>
      cases path with
      | nil =>
        have pair : ¬('/' = a ∧ '/' = b) := fun same => network (by rw [← same.1, ← same.2])
        by_cases first : '/' = a
        · have second : ('/' : Char) ≠ b := fun same => pair ⟨first, same⟩
          simp [rootedAs, List.isPrefixOf, ← first, second]
        · simp [rootedAs, List.isPrefixOf, first]
      | cons c path => simp [rootedAs, List.isPrefixOf]

theorem rootedAs_enter {path : Text} {names : List Text} (each : ∀ n ∈ names, IsName n)
    (grounded : IsGrounded (rootedAs path (join names))) (name : Text) :
    enter (rootedAs path (join names)) name = rootedAs path (join (names ++ [name])) := by
  have alone : join [name] = name := intercalate_singleton
  unfold rootedAs at grounded ⊢
  split
  · rename_i network
    rw [if_pos network] at grounded
    have some_ : names ≠ [] := fun none => grounded.2 (by rw [none]; rfl)
    exact enter_join each some_ ['/', '/'] name
  rename_i other
  rw [if_neg other] at grounded
  split
  · by_cases none : names = []
    · rw [none, nil_append, alone]
      rfl
    · exact enter_join each none ['/'] name
  rename_i unrooted
  rw [if_neg unrooted] at grounded
  by_cases none : join names = []
  · rw [if_pos none] at grounded
    exact absurd rfl grounded.1
  · have some_ : names ≠ [] := fun same => none (by rw [same]; rfl)
    rw [if_neg none, if_neg (by rw [join_concat some_]; simp)]
    exact enter_join each some_ [] name

section
variable {front name : Text}

theorem slashes_below (front : Text) (proper : IsName name) : slashes (front ++ '/' :: name) = slashes front ++ '/' :: name := by
  have head : slashes ('/' :: name) = '/' :: slashes name := rfl
  rw [slashes_append, head, slashes_name proper]

theorem slashes_slash (front : Text) : slashes (front ++ ['/']) = slashes front ++ ['/'] := slashes_append front ['/']

theorem slashes_grounded {path : Text} (grounded : IsGrounded (normalizePath path)) : slashes path ≠ ['/', '/'] := by
  intro network
  apply grounded.2
  have none : namesOf path = [] := by
    unfold namesOf
    rw [network]
    decide +kernel
  rw [normalizePath_names, none, network]
  rfl

theorem normalizePath_below (proper : IsName name) (grounded : IsGrounded (normalizePath (front ++ ['/']))) :
    normalizePath (front ++ '/' :: (name ++ ['/'])) = enter (normalizePath (front ++ ['/'])) name := by
  have other := slashes_grounded grounded
  rw [slashes_slash] at other
  obtain ⟨c, more, shape⟩ := exists_cons_of_ne_nil proper.filled
  have slash : c ≠ '/' := by
    rintro rfl
    exact proper.slash (by rw [shape]; exact mem_cons_self)
  have parts : front ++ '/' :: (name ++ ['/']) = front ++ '/' :: name ++ ['/'] := by simp
  have text : slashes (front ++ '/' :: name) ++ ['/'] = slashes front ++ '/' :: c :: (more ++ ['/']) := by
    rw [slashes_below front proper, shape]
    simp
  rw [normalizePath_names] at grounded
  rw [normalizePath_names (front ++ ['/']), rootedAs_enter (namesOf_isName _) grounded, parts, normalizePath_names, namesOf_slash,
    namesOf_slash, namesOf_name front proper, slashes_slash, slashes_slash, text]
  exact rootedAs_below other slash _ _

theorem normalizePath_slash {path : Text} (some_ : path ≠ []) (last : path.getLast? ≠ some '/') (backslash : path ≠ ['\\'])
    (grounded : IsGrounded (normalizePath path)) : normalizePath (path ++ ['/']) = normalizePath path := by
  rw [normalizePath_names, normalizePath_names, namesOf_slash, slashes_slash]
  refine rootedAs_slash (by simpa [slashes] using some_) ?_ (slashes_grounded grounded) _
  intro root
  cases path with
  | nil => exact some_ rfl
  | cons c path =>
    have head : slashes (c :: path) = (if c = '\\' then '/' else c) :: slashes path := rfl
    rw [head] at root
    obtain ⟨first, rest⟩ := List.cons.inj root
    obtain rfl : path = [] := by simpa [slashes] using rest
    by_cases mark : c = '\\'
    · exact backslash (by rw [mark])
    · rw [if_neg mark] at first
      exact last (by rw [first]; rfl)
end

variable {cwd path absolutePath name : Text}

/-- A directory's spelling, with a slash after it, is combined to its absolute path. -/
def Spells (cwd path absolutePath : Text) : Prop := combinePaths cwd (ensureTrailingSlash path) = absolutePath

def IsDrive (path : Text) : Prop := ∃ c : Char, path = [c, ':'] ∧ c.isAlpha = true

theorem isRootedDiskPath_iff : isRootedDiskPath path = true ↔
    path.head? = some '/' ∨ ∃ c rest, path = c :: ':' :: '/' :: rest ∧ c.utf8Size = 1 := by
  unfold isRootedDiskPath
  split
  · simp
  · rename_i c rest first
    have other : c ≠ '/' := first
    simp [other]
  rename_i first drive
  constructor
  · intro impossible
    cases impossible
  · rintro (slash | ⟨c, rest, rfl, -⟩)
    · obtain ⟨rest, rfl⟩ := List.head?_eq_some_iff.mp slash
      exact absurd rfl (first rest)
    · exact absurd rfl (drive c rest)

theorem isRootedDiskPath_below (front more : Text) : isRootedDiskPath (front ++ '/' :: more) = isRootedDiskPath (front ++ ['/']) := by
  rw [Bool.eq_iff_iff, isRootedDiskPath_iff, isRootedDiskPath_iff]
  rcases front with _ | ⟨a, _ | ⟨b, _ | ⟨c, front⟩⟩⟩ <;> simp

theorem ensureTrailingSlash_ends (some_ : path ≠ []) : ∃ front, ensureTrailingSlash path = front ++ ['/'] := by
  unfold ensureTrailingSlash
  by_cases last : path.getLast? = some '/'
  · rw [if_neg fun both => both.2 last]
    obtain ⟨front, rfl⟩ := List.getLast?_eq_some_iff.mp last
    exact ⟨front, rfl⟩
  · exact ⟨path, if_pos ⟨some_, last⟩⟩

theorem ensureTrailingSlash_enter (proper : IsName name) :
    ensureTrailingSlash (enter path name) = ensureTrailingSlash path ++ (name ++ ['/']) := by
  have last : (enter path name).getLast? ≠ some '/' := by
    unfold enter
    rw [List.getLast?_append, List.getLast?_eq_getLast_of_ne_nil proper.filled]
    intro same
    have slash : name.getLast proper.filled = '/' := by simpa using same
    exact proper.slash (slash ▸ getLast_mem proper.filled)
  have some_ : enter path name ≠ [] := fun none => proper.filled (append_eq_nil_iff.mp none).2
  have outer : ensureTrailingSlash (enter path name) = enter path name ++ ['/'] := if_pos ⟨some_, last⟩
  rw [outer]
  exact append_assoc _ _ _

theorem normalizePath_trimmed (solid : Solid cwd) : normalizePath (trimEndSlashes cwd ++ ['/']) = cwd := by
  obtain ⟨front, names, rfl, each, root⟩ := solid
  by_cases none : names = []
  · rcases root with rfl | ⟨some_, -⟩
    · rw [none]
      decide +kernel
    · exact absurd none some_
  obtain ⟨last, some_⟩ := join_last each none front
  have root' : front = [] ∨ front = ['/'] ∨ front = ['/', '/'] := by tauto
  have whole := normalizePath_join each none root'
  have backslash : front ++ join names ≠ ['\\'] := by
    intro same
    rcases root' with rfl | rfl | rfl
    · rw [nil_append] at same
      exact join_backslash each (same ▸ mem_singleton.mpr rfl)
    · simp at same
    · simp at same
  have grounded : IsGrounded (front ++ join names) := by
    constructor
    · intro same
      rcases root' with rfl | rfl | rfl
      · have pieces := splitOn_join each none
        rw [nil_append] at same
        rw [same] at pieces
        exact (each ['.'] (pieces ▸ mem_singleton.mpr rfl)).dot rfl
      · simp at same
      · simp at same
    · intro same
      exact last (by rw [same]; rfl)
  rw [← whole] at grounded
  rw [trimEndSlashes_of_last last, normalizePath_slash some_ last backslash grounded, whole]

def IsNormal (cwd : Text) : Prop := ∃ path, cwd = normalizePath path

theorem IsNormal.trimmed (normal : IsNormal cwd) (grounded : IsGrounded (normalizePath cwd)) :
    normalizePath (trimEndSlashes cwd ++ ['/']) = cwd ∧ normalizePath cwd = cwd := by
  obtain ⟨path, rfl⟩ := normal
  have grounded' : IsGrounded (normalizePath path) := by
    constructor
    · intro same
      rw [same] at grounded
      exact grounded.1 (by decide +kernel)
    · intro same
      rw [same] at grounded
      exact grounded.2 (by decide +kernel)
  have solid := solid_normalizePath grounded'
  refine ⟨normalizePath_trimmed solid, ?_⟩
  obtain ⟨front, names, shape, each, root⟩ := solid
  rw [shape]
  by_cases none : names = []
  · rcases root with rfl | ⟨some_, -⟩
    · rw [none]
      decide +kernel
    · exact absurd none some_
  · exact normalizePath_join each none (by tauto)

/-- A drive's name alone is no directory's, unless it is a drive. -/
def NoDriveBelow (absolutePath : Text) : Prop := absolutePath.getLast? = some ':' → IsDrive absolutePath

theorem drive_of_slash (proper : IsName name) {c : Char} {rest : Text} (shape : name ++ ['/'] = c :: ':' :: '/' :: rest) :
    name = [c, ':'] := by
  rcases name with _ | ⟨a, _ | ⟨b, _ | ⟨x, name⟩⟩⟩
  · exact absurd rfl proper.filled
  · simp at shape
  · simp only [cons_append, nil_append, List.cons.injEq] at shape
    rw [shape.1, shape.2.1]
  · simp only [cons_append, List.cons.injEq] at shape
    exact absurd (by simp [shape.2.2.1]) proper.slash

theorem normalizePath_ne_nil (path : Text) : normalizePath path ≠ [] := by
  rw [normalizePath_names]
  unfold rootedAs
  split
  · simp
  split
  · simp
  · split
    · simp
    · assumption

theorem ensureTrailingSlash_length (path : Text) : path.length ≤ (ensureTrailingSlash path).length := by
  unfold ensureTrailingSlash
  split
  · simp
  · exact Nat.le_refl _

theorem Spells.enter (normal : IsNormal cwd) (spells : Spells cwd path absolutePath) (grounded : IsGrounded absolutePath)
    (proper : IsName name) (drive : NoDriveBelow (enter absolutePath name)) :
    Spells cwd (enter path name) (Vfsmatch.enter absolutePath name) := by
  unfold Spells at spells ⊢
  rw [ensureTrailingSlash_enter proper]
  by_cases none : path = []
  · rw [none] at spells ⊢
    have empty : ensureTrailingSlash [] = [] := rfl
    have start : combinePaths cwd [] = normalizePath cwd := if_pos rfl
    rw [empty, start] at spells
    rw [empty, nil_append]
    rw [← spells] at grounded
    obtain ⟨trimmed, whole⟩ := normal.trimmed grounded
    have unrooted : isRootedDiskPath (name ++ ['/']) = false := by
      rw [Bool.eq_false_iff, ne_eq, isRootedDiskPath_iff]
      rintro (slash | ⟨c, rest, shape, -⟩)
      · rw [List.head?_append_of_ne_nil _ proper.filled] at slash
        exact proper.slash (mem_of_head? slash)
      have colon : name = [c, ':'] := drive_of_slash proper shape
      obtain ⟨c', whole, -⟩ := drive (by rw [colon]; simp [Vfsmatch.enter])
      rw [colon, ← spells] at whole
      have lengths := congrArg List.length whole
      have some_ := length_pos_iff.mpr (normalizePath_ne_nil cwd)
      have longer := ensureTrailingSlash_length (normalizePath cwd)
      simp only [Vfsmatch.enter, length_append, length_cons, length_nil] at lengths
      omega
    have some_ : name ++ ['/'] ≠ [] := by simp
    unfold combinePaths
    rw [if_neg some_, unrooted, if_neg Bool.false_ne_true, normalizePath_below proper (by rw [trimmed, ← whole]; exact grounded), trimmed,
      ← spells, whole]
  · obtain ⟨front, shape⟩ := ensureTrailingSlash_ends none
    rw [shape] at spells ⊢
    have text : front ++ ['/'] ++ (name ++ ['/']) = front ++ '/' :: (name ++ ['/']) := by simp
    have some_ : front ++ ['/'] ≠ [] := by simp
    have some' : front ++ '/' :: (name ++ ['/']) ≠ [] := by simp
    rw [text]
    unfold combinePaths at spells ⊢
    rw [if_neg some_] at spells
    rw [if_neg some', isRootedDiskPath_below]
    split at spells
    · rename_i rooted
      rw [if_pos rooted, normalizePath_below proper (by rw [spells]; exact grounded), spells]
    · rename_i rooted
      have text' : ∀ more, trimEndSlashes cwd ++ '/' :: (front ++ more) = (trimEndSlashes cwd ++ '/' :: front) ++ more := by simp
      rw [text'] at spells
      rw [if_neg rooted, text', normalizePath_below proper (by rw [spells]; exact grounded), spells]

theorem normalizePath_drive {front last : Text} (proper : IsName last) (colon : last.getLast? = some ':')
    (drive : NoDriveBelow (normalizePath (front ++ '/' :: last))) : normalizePath (front ++ '/' :: last) = last ∧ IsDrive last := by
  have names := namesOf_name front proper
  have alone : join [last] = last := intercalate_singleton
  have ends : (join (namesOf front ++ [last])).getLast? = some ':' := by
    by_cases none : namesOf front = []
    · rw [none, nil_append, alone, colon]
    · rw [join_concat none, List.getLast?_append, List.getLast?_cons, colon]
      rfl
  have filled : join (namesOf front ++ [last]) ≠ [] := by
    intro none
    rw [none] at ends
    cases ends
  have below : ∀ text : Text, text.getLast? = some ':' → ('/' :: text).getLast? = some ':' := by
    intro text colon
    rw [List.getLast?_cons, colon]
    rfl
  rw [normalizePath_names, names] at drive ⊢
  unfold rootedAs at drive ⊢
  split at drive
  · obtain ⟨c, shape, letter⟩ := drive (below _ (below _ ends))
    obtain ⟨rfl, -⟩ := List.cons.inj shape
    cases letter
  rename_i network
  rw [if_neg network]
  split at drive
  · obtain ⟨c, shape, letter⟩ := drive (below _ ends)
    obtain ⟨rfl, -⟩ := List.cons.inj shape
    cases letter
  rename_i unrooted
  rw [if_neg unrooted, if_neg filled]
  have whole := drive ends
  by_cases none : namesOf front = []
  · rw [none, nil_append, alone] at whole ⊢
    exact ⟨rfl, whole⟩
  obtain ⟨c, shape, -⟩ := whole
  rw [join_concat none] at shape
  have lengths := congrArg List.length shape
  have some_ : 0 < (join (namesOf front)).length := by
    apply length_pos_iff.mpr
    exact (join_last (namesOf_isName front) none []).2
  have some' := length_pos_iff.mpr proper.filled
  simp only [length_append, length_cons, length_nil] at lengths
  omega

theorem rooted_of_slash (unrooted : isRootedDiskPath path = false) (rooted : isRootedDiskPath (path ++ ['/']) = true) (some_ : path ≠ []) :
    ∃ c : Char, path = [c, ':'] ∧ c ≠ '/' := by
  have other : path.head? ≠ some '/' := fun slash => Bool.eq_false_iff.mp unrooted (isRootedDiskPath_iff.mpr (.inl slash))
  rcases isRootedDiskPath_iff.mp rooted with slash | ⟨c, rest, shape, size⟩
  · rw [List.head?_append_of_ne_nil _ some_] at slash
    exact absurd slash other
  rcases path with _ | ⟨a, _ | ⟨b, _ | ⟨x, path⟩⟩⟩
  · exact absurd rfl some_
  · simp at shape
  · simp only [cons_append, nil_append, List.cons.injEq] at shape
    exact ⟨a, by rw [shape.2.1], fun slash => other (by rw [slash]; rfl)⟩
  · simp only [cons_append, List.cons.injEq] at shape
    refine absurd ?_ (Bool.eq_false_iff.mp unrooted)
    exact isRootedDiskPath_iff.mpr (.inr ⟨a, path, by rw [shape.2.1, shape.2.2.1], by rw [shape.1]; exact size⟩)

theorem Spells.base {base : Text} (grounded : IsGrounded (combinePaths cwd base)) (drive : NoDriveBelow (combinePaths cwd base)) :
    Spells cwd base (combinePaths cwd base) := by
  unfold Spells
  by_cases ends : base ≠ [] ∧ base.getLast? ≠ some '/'
  · obtain ⟨some_, last⟩ := ends
    have slash : ensureTrailingSlash base = base ++ ['/'] := if_pos ⟨some_, last⟩
    have some' : base ++ ['/'] ≠ [] := by simp
    rw [slash]
    unfold combinePaths at grounded drive ⊢
    rw [if_neg some_] at grounded drive ⊢
    rw [if_neg some']
    cases rooted : isRootedDiskPath base with
    | true =>
      have rooted' : isRootedDiskPath (base ++ ['/']) = true := by
        rw [isRootedDiskPath_iff] at rooted ⊢
        rcases rooted with head | ⟨c, rest, rfl, size⟩
        · rw [List.head?_append_of_ne_nil _ some_]
          exact .inl head
        · exact .inr ⟨c, rest ++ ['/'], by simp, size⟩
      have backslash : base ≠ ['\\'] := by
        rintro rfl
        cases rooted
      rw [rooted, if_pos rfl] at grounded
      rw [rooted', if_pos rfl, if_pos rfl]
      exact normalizePath_slash some_ last backslash grounded
    | false =>
      rw [rooted, if_neg Bool.false_ne_true] at grounded drive
      rw [if_neg Bool.false_ne_true]
      cases rooted' : isRootedDiskPath (base ++ ['/']) with
      | false =>
        have text : trimEndSlashes cwd ++ '/' :: (base ++ ['/']) = (trimEndSlashes cwd ++ '/' :: base) ++ ['/'] := by simp
        rw [if_neg Bool.false_ne_true, text]
        refine normalizePath_slash (by simp) ?_ ?_ grounded
        · rw [List.getLast?_append, List.getLast?_cons]
          intro same
          cases inner : base.getLast? with
          | none => exact some_ (List.getLast?_eq_none_iff.mp inner)
          | some c =>
            rw [inner] at same last
            exact last same
        · intro same
          have listed : '/' ∈ trimEndSlashes cwd ++ '/' :: base := by simp
          rw [same] at listed
          cases listed with
          | tail _ listed => cases listed
      | true =>
        obtain ⟨c, rfl, other⟩ := rooted_of_slash rooted rooted' some_
        rw [if_pos rfl]
        by_cases mark : c = '\\'
        · have text : normalizePath (trimEndSlashes cwd ++ '/' :: [c, ':']) = normalizePath ((trimEndSlashes cwd ++ ['/']) ++ '/' :: [':']) := by
            have same : slashes (trimEndSlashes cwd ++ '/' :: [c, ':']) = slashes ((trimEndSlashes cwd ++ ['/']) ++ '/' :: [':']) := by
              rw [mark, append_assoc, slashes_append, slashes_append]
              rfl
            exact congrArg (fun text => rootedAs text (join ((text.splitOn '/').foldl normalizeStep []))) same
          rw [text] at drive
          have proper : IsName [':'] := by constructor <;> decide
          obtain ⟨-, c', shape, -⟩ := normalizePath_drive proper rfl drive
          cases shape
        have proper : IsName [c, ':'] := by
          constructor
          · simp
          · simp [Ne.symm other]
          · simp [Ne.symm mark]
          · simp
          · simp
        obtain ⟨whole, -⟩ := normalizePath_drive proper rfl drive
        have alone : join [[c, ':']] = [c, ':'] := intercalate_singleton
        have self := @normalizePath_join [] [[c, ':']] (by simpa using proper) (by simp) (.inl rfl)
        rw [nil_append, alone] at self
        have grounded' : IsGrounded (normalizePath [c, ':']) := by
          rw [self]
          exact ⟨by simp, by simp⟩
        rw [whole, normalizePath_slash (by simp) (by simp) (by simp) grounded', self]
  · have same : ensureTrailingSlash base = base := if_neg ends
    rw [same]

end TypeScriptRs.Vfsmatch
