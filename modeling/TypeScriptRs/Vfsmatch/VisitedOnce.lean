import Mathlib.Data.Fintype.Card
import TypeScriptRs.Lib.Countdown
import TypeScriptRs.Vfsmatch.LinkedWalk
import TypeScriptRs.Vfsmatch.Spelling

/-! A walk over linked directories ends, and returns no path twice. -/
namespace TypeScriptRs.Vfsmatch
open Machine Utf8 List

section
/-- A file system with links. A path leads to a directory through links, and a directory has one path without links, which
is its parent's path and its name. Paths of directories are absolute, and a name like a drive's is a drive. -/
structure FileSystem (Dir : Type) where
  host : LinkedHost
  directoryAt : Text → Option Dir
  canonical : Dir → Text
  realpath_eq : ∀ path d, directoryAt path = some d → host.realpath path = canonical d
  absent : ∀ path, directoryAt path = none →
    (host.getAccessibleEntries path).files = [] ∧ (host.getAccessibleEntries path).directories = []
  files_nodup : ∀ path, (host.getAccessibleEntries path).files.Nodup
  named : ∀ path name, name ∈ (host.getAccessibleEntries path).files ∨ name ∈ (host.getAccessibleEntries path).directories → IsName name
  enters : ∀ path d name, directoryAt path = some d → name ∈ (host.getAccessibleEntries path).directories →
    ∃ child, directoryAt (enter path name) = some child ∧
      ∀ links, (host.getAccessibleEntries path).symlinks = some links → name ∉ links → canonical child = enter (canonical d) name
  solid : ∀ d, Solid (canonical d)
  grounded : ∀ path d, directoryAt path = some d → IsGrounded path ∧ NoDriveBelow path

variable {Dir : Type} (fs : FileSystem Dir)

def FileSystem.keyOf (d : Dir) : Text := canonicalFileName (fs.canonical d) fs.host.useCaseSensitiveFileNames

/-- A call of the visitor: the path spells the directory, and the path without links is the directory's, if it is known. -/
structure Called (cwd path absolutePath resolvedRealpath : Text) : Prop where
  spells : ∀ d, fs.directoryAt absolutePath = some d → Spells cwd path absolutePath
  resolved : ∀ d, fs.directoryAt absolutePath = some d → resolvedRealpath = [] ∨ resolvedRealpath = fs.canonical d

variable {fs} {cwd : Text}

theorem Called.base (base : Text) : Called fs cwd base (combinePaths cwd base) [] where
  spells d found := Spells.base (fs.grounded _ d found).1 (fs.grounded _ d found).2
  resolved _ _ := .inl rfl

theorem Called.realpath {path absolutePath resolvedRealpath : Text} (called : Called fs cwd path absolutePath resolvedRealpath) {d : Dir}
    (found : fs.directoryAt absolutePath = some d) :
    (if resolvedRealpath = [] then fs.host.realpath absolutePath else resolvedRealpath) = fs.canonical d := by
  split
  · exact fs.realpath_eq absolutePath d found
  · rename_i some_
    exact (called.resolved d found).resolve_left some_

theorem Called.child (normal : IsNormal cwd) {path absolutePath resolvedRealpath : Text}
    (called : Called fs cwd path absolutePath resolvedRealpath) {d : Dir} (found : fs.directoryAt absolutePath = some d) {name : Text}
    (listed : name ∈ (fs.host.getAccessibleEntries absolutePath).directories) :
    Called fs cwd (enter path name) (enter absolutePath name)
      ((fs.host.getAccessibleEntries absolutePath).childRealpath (fs.canonical d) name) := by
  have proper := fs.named absolutePath name (.inr listed)
  obtain ⟨child, there, unlinked⟩ := fs.enters absolutePath d name found listed
  constructor
  · intro d' found'
    exact (called.spells d found).enter normal (fs.grounded _ d found).1 proper (fs.grounded _ d' found').2
  intro d' found'
  obtain rfl := Option.some.inj (there.symm.trans found')
  unfold Entries.childRealpath
  split
  · rename_i links known
    split
    · rename_i other
      rw [((fs.solid d).enter proper).2, unlinked links known other]
      exact .inr rfl
    · exact .inl rfl
  · exact .inl rfl
end

theorem flatten_modify (results : List (List Text)) (index : Nat) (r : Text) :
    (results.modify index (· ++ [r])).flatten = results.flatten ∨ (results.modify index (· ++ [r])).flatten.Perm (r :: results.flatten) := by
  induction results generalizing index with
  | nil => exact .inl (by rw [modify_nil])
  | cons first results ih =>
    cases index with
    | zero =>
      refine .inr ?_
      rw [modify_zero_cons, flatten_cons, flatten_cons, append_assoc]
      exact perm_middle
    | succ index =>
      rw [modify_succ_cons, flatten_cons, flatten_cons]
      rcases ih index with same | more
      · exact .inl (by rw [same])
      · exact .inr ((List.Perm.append_left first more).trans perm_middle)

theorem addFile_adds (v : GlobVisitor) (pathPrefix absolutePrefix : Text) (s : Found) (file : Text) :
    Outcome.Finishes (fun s' : Found => s'.visited = s.visited ∧ (s'.results.flatten = s.results.flatten ∨
      s'.results.flatten.Perm ((pathPrefix ++ file) :: s.results.flatten))) (v.addFile pathPrefix absolutePrefix s file) := by
  unfold GlobVisitor.addFile
  split
  · refine Outcome.Finishes.bind (matchesFileParts_answers v.fileMatcher absolutePrefix file) fun found _ => ?_
    cases found with
    | none => exact Outcome.Finishes.pure ⟨rfl, .inl rfl⟩
    | some index => exact Outcome.Finishes.pure ⟨rfl, flatten_modify s.results index (pathPrefix ++ file)⟩
  · exact Outcome.Finishes.pure ⟨rfl, .inl rfl⟩

theorem addFiles_adds (v : GlobVisitor) (pathPrefix absolutePrefix : Text) (files : List Text) (s : Found) :
    Outcome.Finishes (fun s' : Found => s'.visited = s.visited ∧ ∃ added : List Text, added.Sublist files ∧
      s'.results.flatten.Perm (added.map (pathPrefix ++ ·) ++ s.results.flatten))
      (files.foldlM (v.addFile pathPrefix absolutePrefix) s) := by
  induction files generalizing s with
  | nil => exact Outcome.Finishes.pure ⟨rfl, [], List.Sublist.refl _, List.Perm.refl _⟩
  | cons file files ih =>
    refine (addFile_adds v pathPrefix absolutePrefix s file).bind fun s₁ first => (ih s₁).mono fun s' later => ?_
    obtain ⟨visited₁, results₁⟩ := first
    obtain ⟨visited', added, sub, perm⟩ := later
    refine ⟨visited'.trans visited₁, ?_⟩
    rcases results₁ with same | more
    · exact ⟨added, sub.cons _, by rw [← same]; exact perm⟩
    · refine ⟨file :: added, sub.cons_cons _, perm.trans ?_⟩
      exact ((List.Perm.append_left _ more).trans perm_middle)

section
variable {Dir : Type} (fs : FileSystem Dir) (cwd : Text)
variable {visited visited' : List Text} {path absolutePath : Text} {s : Walked} {d : Dir}

/-- A result is a file of a directory that has been visited, in a spelling of that directory. -/
def SpelledIn (visited : List Text) (r : Text) : Prop := ∃ path absolutePath file d, r = ensureTrailingSlash path ++ file ∧
  '/' ∉ file ∧ Spells cwd path absolutePath ∧ fs.directoryAt absolutePath = some d ∧ fs.keyOf d ∈ visited

structure Once (s : Walked) : Prop where
  remembered : ∀ path ∈ s.opened, ∀ d, fs.directoryAt path = some d → fs.keyOf d ∈ s.found.visited
  opened : (s.opened.filterMap fs.directoryAt).Nodup
  results : s.found.results.flatten.Nodup
  spelled : ∀ r ∈ s.found.results.flatten, SpelledIn fs cwd s.found.visited r

variable {fs cwd}

theorem SpelledIn.mono {r : Text} (spelled : SpelledIn fs cwd visited r) (more : visited ⊆ visited') :
    SpelledIn fs cwd visited' r := by
  obtain ⟨path, absolutePath, file, d, shape, free, spells, found, seen⟩ := spelled
  exact ⟨path, absolutePath, file, d, shape, free, spells, found, more seen⟩

theorem spelling_unique {path' file file' : Text} (free : '/' ∉ file) (free' : '/' ∉ file')
    (same : ensureTrailingSlash path ++ file = ensureTrailingSlash path' ++ file') :
    ensureTrailingSlash path = ensureTrailingSlash path' ∧ file = file' := by
  have empty : ensureTrailingSlash [] = [] := rfl
  by_cases none : path = []
  · by_cases none' : path' = []
    · rw [none, none'] at same ⊢
      exact ⟨rfl, same⟩
    · obtain ⟨front, shape⟩ := ensureTrailingSlash_ends none'
      rw [none, empty, shape, nil_append] at same
      exact absurd (by rw [same]; simp) free
  obtain ⟨front, shape⟩ := ensureTrailingSlash_ends none
  by_cases none' : path' = []
  · rw [none', empty, shape, nil_append] at same
    exact absurd (by rw [← same]; simp) free'
  · obtain ⟨front', shape'⟩ := ensureTrailingSlash_ends none'
    rw [shape, shape', append_assoc, append_assoc] at same
    obtain ⟨rfl, rfl⟩ := Split.cut_last_unique free free' same
    exact ⟨shape.trans shape'.symm, rfl⟩

theorem Once.read (now : Once fs cwd s) (found : fs.directoryAt absolutePath = some d)
    (spells : Spells cwd path absolutePath) (fresh : fs.keyOf d ∉ s.found.visited) {found' : Found} {added : List Text}
    (visited : found'.visited = fs.keyOf d :: s.found.visited) (sub : added.Sublist (fs.host.getAccessibleEntries absolutePath).files)
    (perm : found'.results.flatten.Perm (added.map (ensureTrailingSlash path ++ ·) ++ s.found.results.flatten)) :
    Once fs cwd ⟨found', s.opened ++ [absolutePath]⟩ := by
  have free : ∀ file ∈ added, '/' ∉ file := fun file listed => (fs.named absolutePath file (.inl (sub.subset listed))).slash
  constructor
  · intro path' listed d' found''
    rw [visited]
    rcases mem_append.mp listed with old | new
    · exact mem_cons_of_mem _ (now.remembered path' old d' found'')
    · rw [mem_singleton.mp new, found] at found''
      rw [Option.some.inj found'']
      exact mem_cons_self
  · have last : [absolutePath].filterMap fs.directoryAt = [d] := by simp [found]
    rw [filterMap_append, last]
    refine nodup_append'.mpr ⟨now.opened, nodup_singleton d, ?_⟩
    intro d' listed same
    obtain ⟨path', member, found''⟩ := mem_filterMap.mp listed
    rw [mem_singleton.mp same] at found''
    exact fresh (now.remembered path' member d found'')
  · rw [perm.nodup_iff]
    refine nodup_append'.mpr ⟨?_, now.results, ?_⟩
    · exact ((fs.files_nodup absolutePath).sublist sub).map fun file file' same => append_cancel_left same
    intro r new old
    obtain ⟨file, listed, rfl⟩ := mem_map.mp new
    obtain ⟨path', absolutePath', file', d', shape, free', spells', found'', seen⟩ := now.spelled _ old
    have same := (spelling_unique (free file listed) free' shape).1
    unfold Spells at spells spells'
    rw [← same, spells] at spells'
    rw [← spells', found] at found''
    rw [← Option.some.inj found''] at seen
    exact fresh seen
  · intro r listed
    rw [visited]
    rcases mem_append.mp (perm.subset listed) with new | old
    · obtain ⟨file, member, rfl⟩ := mem_map.mp new
      exact ⟨path, absolutePath, file, d, rfl, free file member, spells, found, mem_cons_self⟩
    · exact (now.spelled r old).mono (subset_cons_self _ _)

theorem Once.absent (now : Once fs cwd s) (none : fs.directoryAt absolutePath = none) (key : Text) :
    Once fs cwd ⟨{ s.found with visited := key :: s.found.visited }, s.opened ++ [absolutePath]⟩ := by
  constructor
  · intro path listed d found
    rcases mem_append.mp listed with old | new
    · exact mem_cons_of_mem _ (now.remembered path old d found)
    · rw [mem_singleton.mp new, none] at found
      cases found
  · have last : [absolutePath].filterMap fs.directoryAt = [] := by simp [none]
    rw [filterMap_append, last, append_nil]
    exact now.opened
  · exact now.results
  · exact fun r listed => (now.spelled r listed).mono (subset_cons_self _ _)

variable [Fintype Dir]

def unvisited (fs : FileSystem Dir) (visited : List Text) : Nat := (Finset.univ.filter fun d => fs.keyOf d ∉ visited).card

theorem unvisited_mono (more : visited ⊆ visited') : unvisited fs visited' ≤ unvisited fs visited := by
  apply Countdown.card_le
  exact fun d fresh seen => fresh (more seen)

theorem unvisited_lt (fresh : fs.keyOf d ∉ visited) : unvisited fs (fs.keyOf d :: visited) < unvisited fs visited := by
  apply Countdown.card_lt (fun d' fresh' seen => fresh' (mem_cons_of_mem _ seen)) (Finset.mem_univ d) fresh
  exact fun fresh' => fresh' mem_cons_self

theorem visit_finishes (normal : IsNormal cwd) (v : GlobVisitor) (fuel : Nat) (depth : Int) {resolvedRealpath : Text} (called : Called fs cwd path absolutePath resolvedRealpath) (now : Once fs cwd s)
    (enough : unvisited fs s.found.visited < fuel) :
    Outcome.Finishes (fun s' : Walked => Once fs cwd s' ∧ s.found.visited ⊆ s'.found.visited)
      (v.visit fs.host fuel depth path absolutePath resolvedRealpath s) := by
  induction fuel generalizing depth path absolutePath resolvedRealpath s with
  | zero => exact absurd enough (Nat.not_lt_zero _)
  | succ fuel ih =>
    unfold GlobVisitor.visit
    dsimp only
    generalize (if depth = unlimitedDepth then depth else depth - 1) = nextDepth
    generalize real : (if resolvedRealpath = [] then fs.host.realpath absolutePath else resolvedRealpath) = realpath
    by_cases fresh : canonicalFileName realpath fs.host.useCaseSensitiveFileNames ∈ s.found.visited
    · rw [if_pos fresh]
      exact Outcome.Finishes.pure ⟨now, List.Subset.refl _⟩
    rw [if_neg fresh]
    cases found : fs.directoryAt absolutePath with
    | none =>
      obtain ⟨noFiles, noDirectories⟩ := fs.absent absolutePath found
      rw [noFiles, noDirectories]
      have after := now.absent found (canonicalFileName realpath fs.host.useCaseSensitiveFileNames)
      have grown := subset_cons_self (canonicalFileName realpath fs.host.useCaseSensitiveFileNames) s.found.visited
      split
      · apply Outcome.Finishes.pure
        exact ⟨after, grown⟩
      · apply Outcome.Finishes.pure
        exact ⟨after, grown⟩
    | some d =>
      have spells := called.spells d found
      obtain rfl : fs.canonical d = realpath := (called.realpath found).symm.trans real
      refine (addFiles_adds v _ _ _ _).bind fun found' added => ?_
      obtain ⟨visited, names, sub, perm⟩ := added
      have read := now.read found spells fresh visited sub perm
      have seen : s.found.visited ⊆ found'.visited := by
        rw [visited]
        exact subset_cons_self _ _
      have fewer : unvisited fs found'.visited < fuel := by
        have less := unvisited_lt fresh
        rw [visited]
        exact Nat.lt_of_lt_of_le less (Nat.le_of_lt_succ enough)
      split
      · apply Outcome.Finishes.pure
        exact ⟨read, seen⟩
      refine (Outcome.Finishes.foldlM (P := fun s' : Walked => Once fs cwd s' ∧ found'.visited ⊆ s'.found.visited) _ ?_
        ⟨read, List.Subset.refl _⟩).mono fun s' after => ⟨after.1, List.Subset.trans seen after.2⟩
      intro s' name listed before
      refine Outcome.Finishes.bind (matchesDirectoryParts_answers v.directoryMatcher _ name) fun passes _ => ?_
      split
      · have fewer' := Nat.lt_of_le_of_lt (unvisited_mono before.2) fewer
        exact (ih _ (called.child normal found listed) before.1 fewer').mono fun s'' after => ⟨after.1, List.Subset.trans before.2 after.2⟩
      · exact Outcome.Finishes.pure before

omit [Fintype Dir] in
theorem Once.start (count : Nat) : Once fs cwd ⟨{ results := List.replicate count [] }, []⟩ := by
  have none : (List.replicate count ([] : List Text)).flatten = [] := by simp
  constructor
  · rintro path ⟨⟩
  · exact nodup_nil
  · rw [none]
    exact nodup_nil
  · rw [none]
    rintro r ⟨⟩

theorem unvisited_le (visited : List Text) : unvisited fs visited ≤ Fintype.card Dir := Finset.card_filter_le _ _

theorem visitBases_finishes (fs : FileSystem Dir) (options : MatchFilesOptions) {fuel : Nat} (enough : Fintype.card Dir < fuel) :
    Outcome.Finishes (Once fs (normalizePath options.currentDirectory)) (fs.host.visitBases options fuel) := by
  apply Outcome.Finishes.foldlM
  · intro s base listed now
    have enough' : unvisited fs s.found.visited < fuel := Nat.lt_of_le_of_lt (unvisited_le s.found.visited) enough
    exact (visit_finishes ⟨_, rfl⟩ (fs.host.visitor options) fuel options.depth (Called.base base) now enough').mono fun s' after => after.1
  · exact Once.start _

/-- The walk ends with one outcome, however much fuel there is: it reads no directory twice, and returns no path twice. -/
theorem matchFiles_once (fs : FileSystem Dir) (options : MatchFilesOptions) :
    ∃ outcome : Outcome Walked, (∀ fuel, Fintype.card Dir < fuel → fs.host.visitBases options fuel = outcome) ∧
      (∀ m, outcome ≠ .err m) ∧
      ∀ s, outcome = .ok s → (s.opened.filterMap fs.directoryAt).Nodup ∧ s.found.results.flatten.Nodup ∧
        ∀ fuel, Fintype.card Dir < fuel → fs.host.matchFiles options fuel = .ok s.found.results.flatten := by
  have least := visitBases_finishes fs options (Nat.lt_succ_self (Fintype.card Dir))
  have same : ∀ fuel, Fintype.card Dir < fuel → fs.host.visitBases options fuel = fs.host.visitBases options (Fintype.card Dir + 1) := by
    intro fuel enough
    induction fuel, enough using Nat.le_induction with
    | base => rfl
    | succ fuel enough ih =>
      have answers := (visitBases_finishes fs options enough).1
      rw [visitBases_more answers, ih]
  refine ⟨_, same, least.1, ?_⟩
  intro s returned
  have once := least.2 s returned
  refine ⟨once.opened, once.results, ?_⟩
  intro fuel enough
  unfold LinkedHost.matchFiles
  rw [same fuel enough, returned]
  rfl
end

variable {path : Text}

def loops : Text → Bool
  | [] => true
  | '/' :: 'l' :: 'o' :: 'o' :: 'p' :: rest => loops rest
  | _ => false

def inLoop : Text → Bool
  | '/' :: 'p' :: rest => loops rest
  | _ => false

theorem loops_concat (inside : loops path = true) : loops (path ++ "/loop".toList) = true := by
  fun_induction loops path with
  | case1 => rfl
  | case2 rest ih => exact ih inside
  | case3 => cases inside

theorem loops_last (inside : loops path = true) : path = [] ∨ path.getLast? = some 'p' := by
  fun_induction loops path with
  | case1 => exact .inl rfl
  | case2 rest ih =>
    rcases ih inside with rfl | last
    · exact .inr rfl
    · exact .inr (by simp [List.getLast?_cons, last])
  | case3 => cases inside

theorem inLoop_shape (inside : inLoop path = true) : ∃ rest, path = '/' :: 'p' :: rest ∧ loops rest = true := by
  unfold inLoop at inside
  split at inside
  · exact ⟨_, rfl, inside⟩
  · cases inside

theorem inLoop_last (inside : inLoop path = true) : path.getLast? = some 'p' := by
  obtain ⟨rest, rfl, inside⟩ := inLoop_shape inside
  rcases loops_last inside with rfl | last
  · rfl
  · simp [List.getLast?_cons, last]

theorem inLoop_enter (inside : inLoop path = true) : inLoop (enter path "loop".toList) = true := by
  have last := inLoop_last inside
  obtain ⟨rest, rfl, inside⟩ := inLoop_shape inside
  have slash : ensureTrailingSlash ('/' :: 'p' :: rest) = '/' :: 'p' :: rest ++ ['/'] := by
    unfold ensureTrailingSlash
    rw [if_pos ⟨by simp, by rw [last]; decide⟩]
  unfold enter
  rw [slash]
  have text : '/' :: 'p' :: rest ++ ['/'] ++ "loop".toList = '/' :: 'p' :: (rest ++ "/loop".toList) := by
    rw [append_assoc]
    rfl
  rw [text]
  exact loops_concat inside

/-- A directory with a file and a link to the directory itself. -/
def loopingHost : LinkedHost where
  getAccessibleEntries path :=
    if inLoop path then ⟨["a.ts".toList], ["loop".toList], some ["loop".toList]⟩ else ⟨[], [], some []⟩
  realpath path := if inLoop path then "/p".toList else path
  useCaseSensitiveFileNames := true

theorem loopingHost_inside (inside : inLoop path = true) :
    loopingHost.getAccessibleEntries path = ⟨["a.ts".toList], ["loop".toList], some ["loop".toList]⟩ := if_pos inside

theorem loopingHost_outside (outside : ¬inLoop path = true) : loopingHost.getAccessibleEntries path = ⟨[], [], some []⟩ :=
  if_neg outside

def loopingSystem : FileSystem Unit where
  host := loopingHost
  directoryAt path := if inLoop path then some () else none
  canonical _ := "/p".toList
  realpath_eq path d found := by
    split at found
    · rename_i inside
      exact if_pos inside
    · cases found
  absent path none := by
    split at none
    · cases none
    · rename_i outside
      rw [loopingHost_outside outside]
      exact ⟨rfl, rfl⟩
  files_nodup path := by
    by_cases inside : inLoop path = true
    · rw [loopingHost_inside inside]
      decide
    · rw [loopingHost_outside inside]
      exact nodup_nil
  named path name listed := by
    by_cases inside : inLoop path = true
    · rw [loopingHost_inside inside] at listed
      rcases listed with file | directory
      · rw [mem_singleton.mp file]
        constructor <;> decide
      · rw [mem_singleton.mp directory]
        constructor <;> decide
    · rw [loopingHost_outside inside] at listed
      rcases listed with listed | listed <;> cases listed
  enters path d name found listed := by
    split at found
    · rename_i inside
      rw [loopingHost_inside inside] at listed ⊢
      obtain rfl := mem_singleton.mp listed
      refine ⟨(), if_pos (inLoop_enter inside), ?_⟩
      intro links known other
      cases known
      exact absurd (mem_singleton.mpr rfl) other
    · cases found
  solid d := by
    refine ⟨['/'], [['p']], rfl, ?_, .inl rfl⟩
    intro name listed
    rw [mem_singleton.mp listed]
    constructor <;> decide
  grounded path d found := by
    split at found
    · rename_i inside
      have last := inLoop_last inside
      refine ⟨⟨?_, ?_⟩, ?_⟩
      · rintro rfl
        cases inside
      · rintro rfl
        cases inside
      · intro colon
        rw [last] at colon
        cases colon
    · cases found

def everyTypeScriptFile : MatchFilesOptions where
  path := "/p".toList
  extensions := [".ts".toList]
  excludes := []
  includes := ["**/*.ts".toList, "/p/loop/*.ts".toList]
  currentDirectory := "/".toList
  depth := unlimitedDepth

example : loopingSystem.host.matchFiles everyTypeScriptFile 2 = .ok ["/p/a.ts".toList] := by decide +kernel

end TypeScriptRs.Vfsmatch
