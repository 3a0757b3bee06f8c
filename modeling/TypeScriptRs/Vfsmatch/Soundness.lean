import TypeScriptRs.Vfsmatch.Directories

/-! A walk finds what the patterns accept, unless a name is cut inside a character. -/
namespace TypeScriptRs.Vfsmatch
open Machine Utf8 List Outcome

/-- A file tree without symbolic links: paths show one tree, and differ where the case of letters counts only. -/
structure Host.Plain (host : Host) : Prop where
  unlinked : ∀ path links, host.symlinks path = some links → links = []
  real : ∀ path, canonicalFileName (host.realpath path) host.useCaseSensitiveFileNames =
    canonicalFileName path host.useCaseSensitiveFileNames
  child : ∀ path name tree, (host.directory path).directories.Lists name tree → host.directory (enter path name) = tree
  named : ∀ path name tree, (host.directory path).directories.Lists name tree → IsName name
  alike : ∀ path path', canonicalFileName path host.useCaseSensitiveFileNames =
    canonicalFileName path' host.useCaseSensitiveFileNames → host.directory path = host.directory path'

def descend (path : Text) (names : List Text) : Text := names.foldl enter path

theorem descend_concat (path : Text) (names : List Text) (name : Text) :
    descend path (names ++ [name]) = enter (descend path names) name := by
  simp [descend]

section
variable (options : MatchFilesOptions) (host : Host) {s s' : Found} {path absolutePath : Text}

def key (path : Text) : Text := canonicalFileName path host.useCaseSensitiveFileNames

def fileTest (path file : Text) : Outcome (Option Nat) :=
  (options.matcher host .files).matchesFileParts (ensureTrailingSlash path) file

def directoryTest (path name : Text) : Outcome Bool :=
  (options.matcher host .directories).matchesDirectoryParts (ensureTrailingSlash path) name

structure Scanned (s : Found) (path absolutePath : Text) : Prop where
  files : ∀ file ∈ (host.directory absolutePath).files, (options.visitor host).hasExtension file = true →
    ∃ found, fileTest options host absolutePath file = .ok found ∧
      (found.isSome = true → ensureTrailingSlash path ++ file ∈ s.results.flatten)
  directories : ∀ name tree, (host.directory absolutePath).directories.Lists name tree →
    ∃ passes, directoryTest options host absolutePath name = .ok passes ∧
      (passes = true → key host (enter absolutePath name) ∈ s.visited)

def Located (path absolutePath : Text) : Prop := ∃ base ∈ options.basePaths host, ∃ names,
  path = descend base names ∧ absolutePath = descend (options.absolute base) names

def Done (s : Found) (k : Text) : Prop := ∃ path absolutePath, Located options host path absolutePath ∧
  key host absolutePath = k ∧ Scanned options host s path absolutePath

structure Grows (s s' : Found) : Prop where
  visited : ∀ k ∈ s.visited, k ∈ s'.visited
  results : ∀ r ∈ s.results.flatten, r ∈ s'.results.flatten
  length : s'.results.length = s.results.length

variable {options host}

theorem Grows.refl (s : Found) : Grows s s := ⟨fun _ => id, fun _ => id, rfl⟩

theorem Grows.trans {a b c : Found} (first : Grows a b) (second : Grows b c) : Grows a c :=
  ⟨fun k listed => second.visited k (first.visited k listed), fun r listed => second.results r (first.results r listed),
    second.length.trans first.length⟩

theorem Scanned.mono (scanned : Scanned options host s path absolutePath)
    (grows : Grows s s') : Scanned options host s' path absolutePath where
  files file listed extension := by
    obtain ⟨found, test, added⟩ := scanned.files file listed extension
    exact ⟨found, test, fun some_ => grows.results _ (added some_)⟩
  directories name tree listed := by
    obtain ⟨passes, test, seen⟩ := scanned.directories name tree listed
    exact ⟨passes, test, fun pass => grows.visited _ (seen pass)⟩

theorem Done.mono {k : Text} (done : Done options host s k) (grows : Grows s s') : Done options host s' k := by
  obtain ⟨path, absolutePath, located, same, scanned⟩ := done
  exact ⟨path, absolutePath, located, same, scanned.mono grows⟩

theorem Located.enter (located : Located options host path absolutePath) (name : Text) :
    Located options host (enter path name) (enter absolutePath name) := by
  obtain ⟨base, listed, names, rfl, rfl⟩ := located
  exact ⟨base, listed, names ++ [name], (descend_concat base names name).symm, (descend_concat _ names name).symm⟩
end

section
variable {options : MatchFilesOptions} {host : Host} {absolutePath file path : Text} {index : Nat}

def Roomy (options : MatchFilesOptions) (host : Host) (s : Found) : Prop :=
  s.results.length = max (options.matcher host .files).includes.length 1

theorem fileTest_index (found : fileTest options host absolutePath file = .ok (some index)) :
    index < max (options.matcher host .files).includes.length 1 := by
  obtain ⟨excluded, -, result⟩ := bind_eq_ok found
  split at result
  · cases result
  split at result
  · split at result
    · cases result
    · cases result
      omega
  · obtain ⟨p, -, -, -, high⟩ := positionMatches_some result
    omega

theorem mem_flatten_modify {results : List (List Text)} (inside : index < results.length) (r : Text) :
    r ∈ (results.modify index (· ++ [r])).flatten ∧
      ∀ r' ∈ results.flatten, r' ∈ (results.modify index (· ++ [r])).flatten := by
  induction results generalizing index with
  | nil => cases inside
  | cons first rest ih =>
    cases index with
    | zero =>
      simp only [modify_zero_cons, flatten_cons, mem_append]
      exact ⟨.inl (.inr (by simp)), fun r' listed => listed.imp_left .inl⟩
    | succ index =>
      have later := ih (Nat.lt_of_succ_lt_succ inside)
      simp only [modify_succ_cons, flatten_cons, mem_append]
      exact ⟨.inr later.1, fun r' listed => listed.imp_right (later.2 r')⟩

theorem addFile_spec {s s' : Found} (roomy : Roomy options host s)
    (ran : (options.visitor host).addFile (ensureTrailingSlash path) (ensureTrailingSlash absolutePath) s file = .ok s') :
    Grows s s' ∧ s'.visited = s.visited ∧ ((options.visitor host).hasExtension file = true →
      ∃ found, fileTest options host absolutePath file = .ok found ∧
        (found.isSome = true → ensureTrailingSlash path ++ file ∈ s'.results.flatten)) := by
  unfold GlobVisitor.addFile at ran
  split at ran
  · obtain ⟨found, test, result⟩ := bind_eq_ok ran
    cases found with
    | none =>
      cases result
      exact ⟨.refl s, rfl, fun _ => ⟨none, test, fun some_ => by cases some_⟩⟩
    | some index =>
      cases result
      have inside : index < s.results.length := by
        rw [roomy]
        exact fileTest_index test
      obtain ⟨added, kept⟩ := mem_flatten_modify inside (ensureTrailingSlash path ++ file)
      exact ⟨⟨fun _ => id, kept, length_modify ..⟩, rfl, fun _ => ⟨some index, test, fun _ => added⟩⟩
  · rename_i other
    cases ran
    exact ⟨.refl s, rfl, fun extension => absurd extension other⟩

theorem addFiles_spec (files : List Text) : ∀ s s' : Found, Roomy options host s →
    files.foldlM ((options.visitor host).addFile (ensureTrailingSlash path) (ensureTrailingSlash absolutePath)) s = .ok s' →
    Grows s s' ∧ s'.visited = s.visited ∧ ∀ file ∈ files, (options.visitor host).hasExtension file = true →
      ∃ found, fileTest options host absolutePath file = .ok found ∧
        (found.isSome = true → ensureTrailingSlash path ++ file ∈ s'.results.flatten) := by
  induction files with
  | nil =>
    intro s s' _ ran
    cases ran
    exact ⟨.refl s, rfl, by simp⟩
  | cons file files ih =>
    intro s s' roomy ran
    obtain ⟨s₁, first, rest⟩ := bind_eq_ok ran
    obtain ⟨grows, seen, here⟩ := addFile_spec roomy first
    obtain ⟨grows', seen', later⟩ := ih s₁ s' (grows.length.trans roomy) rest
    refine ⟨grows.trans grows', seen'.trans seen, fun other listed extension => ?_⟩
    rcases mem_cons.mp listed with rfl | old
    · obtain ⟨found, test, added⟩ := here extension
      exact ⟨found, test, fun some_ => grows'.results _ (added some_)⟩
    · exact later other old extension
end

section
variable {options : MatchFilesOptions} {host : Host}

/-- A directory that the walk is at: its tree, its place, and the name that it is remembered by. -/
structure Here (options : MatchFilesOptions) (host : Host) (tree : Tree) (path absolutePath : Text) : Prop where
  tree : host.directory absolutePath = tree
  located : Located options host path absolutePath
  solid : Solid absolutePath

theorem Here.enter {tree child : Tree} {path absolutePath name : Text} (plain : host.Plain)
    (here : Here options host tree path absolutePath) (listed : tree.directories.Lists name child) :
    Here options host child (enter path name) (enter absolutePath name) := by
  have inside : (host.directory absolutePath).directories.Lists name child := by
    rw [here.tree]
    exact listed
  exact ⟨plain.child _ _ _ inside, here.located.enter name, (here.solid.enter (plain.named _ _ _ inside)).1⟩

/-- The name that a directory is remembered by, when it was found in its parent or not. -/
def Remembers (host : Host) (resolvedRealpath absolutePath : Text) : Prop :=
  resolvedRealpath = [] ∨ key host resolvedRealpath = key host absolutePath

theorem key_realpath {resolvedRealpath absolutePath : Text} (plain : host.Plain)
    (remembers : Remembers host resolvedRealpath absolutePath) :
    key host (if resolvedRealpath = [] then host.realpath absolutePath else resolvedRealpath) = key host absolutePath := by
  split
  · exact plain.real absolutePath
  · rename_i some_
    exact remembers.resolve_left some_

theorem remembers_child {absolutePath realpath name : Text} {tree : Tree} (plain : host.Plain) (solid : Solid absolutePath)
    (same : key host realpath = key host absolutePath) (listed : (host.directory absolutePath).directories.Lists name tree) :
    Remembers host (childRealpath host absolutePath realpath name) (enter absolutePath name) := by
  have proper := plain.named _ _ _ listed
  unfold childRealpath
  split
  · rename_i links known
    rw [plain.unlinked _ _ known, if_pos (by simp)]
    exact .inr (canonical_combinePaths same solid proper)
  · exact .inl rfl

/-- A directory is visited, and every directory remembered since is done. -/
def Visits (options : MatchFilesOptions) (host : Host) (s s' : Found) : Prop :=
  Grows s s' ∧ ∀ k ∈ s'.visited, k ∈ s.visited ∨ Done options host s' k

theorem Visits.trans {a b c : Found} (first : Visits options host a b) (second : Visits options host b c) :
    Visits options host a c := by
  refine ⟨first.1.trans second.1, fun k listed => ?_⟩
  rcases second.2 k listed with old | done
  · exact (first.2 k old).imp_right fun done => done.mono second.1
  · exact .inr done

mutual

theorem visit_spec (plain : host.Plain) : ∀ (tree : Tree) (path absolutePath resolvedRealpath : Text) (s s' : Found),
    Here options host tree path absolutePath → Remembers host resolvedRealpath absolutePath → Roomy options host s →
    visit (options.visitor host) host tree path absolutePath unlimitedDepth resolvedRealpath s = .ok s' →
    Visits options host s s' ∧ key host absolutePath ∈ s'.visited
  | .node files directories, path, absolutePath, resolvedRealpath, s, s', here, remembers, roomy, ran => by
    have same := key_realpath plain remembers
    rw [visit] at ran
    dsimp only at ran
    generalize (if resolvedRealpath = [] then host.realpath absolutePath else resolvedRealpath) = realpath at same ran
    have same' : canonicalFileName realpath host.useCaseSensitiveFileNames = key host absolutePath := same
    rw [same'] at ran
    split at ran
    · rename_i seen
      cases ran
      exact ⟨⟨.refl s, fun k listed => .inl listed⟩, seen⟩
    obtain ⟨s₁, first, rest⟩ := bind_eq_ok ran
    rw [if_neg (by simp), if_pos rfl] at rest
    have roomy' : Roomy options host { s with visited := key host absolutePath :: s.visited } := roomy
    obtain ⟨grows, seen, filesDone⟩ := addFiles_spec files _ s₁ roomy' first
    have listed : ∀ name tree, directories.Lists name tree → (host.directory absolutePath).directories.Lists name tree := by
      rw [here.tree]
      exact fun _ _ => id
    obtain ⟨visits, directoriesDone⟩ := visitDirectories_spec plain directories path absolutePath realpath s₁ s' _
      here listed same (grows.length.trans roomy) rest
    have scanned : Scanned options host s' path absolutePath := by
      refine ⟨fun file member extension => ?_, fun name tree member => ?_⟩
      · rw [here.tree] at member
        obtain ⟨found, test, added⟩ := filesDone file member extension
        exact ⟨found, test, fun some_ => visits.1.results _ (added some_)⟩
      · rw [here.tree] at member
        exact directoriesDone name tree member
    have entered : key host absolutePath ∈ s'.visited := visits.1.visited _ (by rw [seen]; simp)
    refine ⟨⟨?_, fun k member => ?_⟩, entered⟩
    · refine ⟨fun k member => ?_, fun r member => visits.1.results r (grows.results r member),
        visits.1.length.trans grows.length⟩
      exact visits.1.visited k (by rw [seen]; exact mem_cons_of_mem _ member)
    rcases visits.2 k member with old | done
    · rw [seen] at old
      rcases mem_cons.mp old with rfl | older
      · exact .inr ⟨path, absolutePath, here.located, rfl, scanned⟩
      · exact .inl older
    · exact .inr done

theorem visitDirectories_spec (plain : host.Plain) : ∀ (directories : Forest) (path absolutePath realpath : Text)
    (s s' : Found) (tree : Tree), Here options host tree path absolutePath →
    (∀ name child, directories.Lists name child → (host.directory absolutePath).directories.Lists name child) →
    key host realpath = key host absolutePath → Roomy options host s →
    visitDirectories (options.visitor host) host directories path absolutePath unlimitedDepth realpath s = .ok s' →
    Visits options host s s' ∧ ∀ name child, directories.Lists name child →
      ∃ passes, directoryTest options host absolutePath name = .ok passes ∧
        (passes = true → key host (enter absolutePath name) ∈ s'.visited)
  | .none, path, absolutePath, realpath, s, s', tree, here, listed, same, roomy, ran => by
    cases ran
    exact ⟨⟨.refl s, fun k member => .inl member⟩, fun name child member => absurd member id⟩
  | .more name child rest, path, absolutePath, realpath, s, s', tree, here, listed, same, roomy, ran => by
    have inside := listed name child (.inl ⟨rfl, rfl⟩)
    have below := here.enter plain (here.tree ▸ inside)
    have remembers := remembers_child plain here.solid same inside
    rw [visitDirectories] at ran
    obtain ⟨passes, test, next⟩ := bind_eq_ok ran
    have later : ∀ name' child', rest.Lists name' child' → (host.directory absolutePath).directories.Lists name' child' :=
      fun name' child' member => listed name' child' (.inr member)
    cases passes with
    | false =>
      obtain ⟨visits, done⟩ := visitDirectories_spec plain rest path absolutePath realpath s s' tree here later same roomy next
      refine ⟨visits, fun name' child' member => ?_⟩
      rcases member with ⟨rfl, -⟩ | member
      · exact ⟨false, test, fun never => by cases never⟩
      · exact done name' child' member
    | true =>
      obtain ⟨s₁, first, last⟩ := bind_eq_ok next
      obtain ⟨visits, seen⟩ := visit_spec plain child _ _ _ s s₁ below remembers roomy first
      obtain ⟨visits', done⟩ := visitDirectories_spec plain rest path absolutePath realpath s₁ s' tree here later same
        (visits.1.length.trans roomy) last
      refine ⟨visits.trans visits', fun name' child' member => ?_⟩
      rcases member with ⟨rfl, -⟩ | member
      · exact ⟨true, test, fun _ => visits'.1.visited _ seen⟩
      · exact done name' child' member
end

end

section
variable (options : MatchFilesOptions) (host : Host)

def Leads : Text → List Text → Prop
  | _, [] => True
  | path, name :: names => (∃ tree, (host.directory path).directories.Lists name tree) ∧ Leads (enter path name) names

def Reached : Text → List Text → Prop
  | _, [] => True
  | path, name :: names => (∃ tree, (host.directory path).directories.Lists name tree) ∧
    directoryTest options host path name = .ok true ∧ Reached (enter path name) names

structure Unsliced (path : Text) : Prop where
  files : ∀ file ∈ (host.directory path).files, (options.visitor host).hasExtension file = true →
    ∃ found, fileTest options host path file = .ok found
  directories : ∀ name tree, (host.directory path).directories.Lists name tree →
    ∃ passes, directoryTest options host path name = .ok passes

structure Accepted (base : Text) (names : List Text) (file : Text) : Prop where
  leads : Leads host (options.absolute base) names
  listed : file ∈ (host.directory (descend (options.absolute base) names)).files
  extension : (options.visitor host).hasExtension file = true
  accepted : ∃ index, fileTest options host (descend (options.absolute base) names) file = .ok (some index)

/-- Every accepted file is returned, by the name it has below a base path. -/
def Returns : Prop := ∃ results, matchFiles options host = .ok results ∧
  ∀ base ∈ options.basePaths host, ∀ names file, Accepted options host base names file →
    ∃ base' ∈ options.basePaths host, ∃ names',
      key host (descend (options.absolute base') names') = key host (descend (options.absolute base) names) ∧
        ensureTrailingSlash (descend base' names') ++ file ∈ results

variable {options host}

theorem leads_append : ∀ (before : List Text) {path name : Text} {after : List Text},
    Leads host path (before ++ name :: after) → ∃ tree, (host.directory (descend path before)).directories.Lists name tree
  | [], _, _, _, leads => leads.1
  | _ :: before, _, _, _, leads => leads_append before leads.2

theorem reached_concat : ∀ (before : List Text) {path name : Text}, Reached options host path before →
    (∃ tree, (host.directory (descend path before)).directories.Lists name tree) →
    directoryTest options host (descend path before) name = .ok true → Reached options host path (before ++ [name])
  | [], _, _, _, listed, passes => ⟨listed, passes, trivial⟩
  | _ :: before, _, _, reached, listed, passes => ⟨reached.1, reached.2.1, reached_concat before reached.2.2 listed passes⟩

theorem enter_last {name : Text} (path : Text) (proper : IsName name) :
    (enter path name).getLast? ≠ some '/' ∧ enter path name ≠ [] := by
  have single : join [name] = name := intercalate_singleton
  have last := join_last (by simpa using proper : ∀ n ∈ [name], IsName n) (by simp) (ensureTrailingSlash path)
  rwa [single] at last

theorem descend_below (plain : host.Plain) (names : List Text) : ∀ path file : Text, path.getLast? ≠ some '/' → path ≠ [] →
    Leads host path names → ∃ back, ensureTrailingSlash (descend path names) ++ file = path ++ '/' :: back := by
  induction names with
  | nil =>
    intro path file last some_ _
    refine ⟨file, ?_⟩
    have shape : ensureTrailingSlash path = path ++ ['/'] := if_pos ⟨some_, last⟩
    change ensureTrailingSlash path ++ file = _
    rw [shape]
    simp
  | cons name names ih =>
    intro path file last some_ leads
    obtain ⟨⟨tree, listed⟩, later⟩ := leads
    have proper := plain.named _ _ _ listed
    obtain ⟨last', some'⟩ := enter_last path proper
    obtain ⟨back, shape⟩ := ih (enter path name) file last' some' later
    refine ⟨name ++ '/' :: back, ?_⟩
    have entered : enter path name = path ++ '/' :: name := by
      unfold enter ensureTrailingSlash
      rw [if_pos ⟨some_, last⟩]
      simp
    change ensureTrailingSlash (descend (enter path name) names) ++ file = _
    rw [shape, entered]
    simp

theorem leads_after : ∀ (before : List Text) {path name : Text} {after : List Text}, Leads host path (before ++ name :: after) →
    Leads host (enter (descend path before) name) after
  | [], _, _, _, leads => leads.2
  | _ :: before, _, _, _, leads => leads_after before leads.2

theorem Accepted.passes (plain : host.Plain) {base file name : Text} {before after : List Text}
    (accepted : Accepted options host base (before ++ name :: after) file) :
    directoryTest options host (descend (options.absolute base) before) name ≠ .ok false := by
  obtain ⟨tree, listed⟩ := leads_append before accepted.leads
  obtain ⟨index, found⟩ := accepted.accepted
  have proper := plain.named _ _ _ listed
  obtain ⟨last, some_⟩ := enter_last (descend (options.absolute base) before) proper
  have whole : descend (options.absolute base) (before ++ name :: after) =
      descend (enter (descend (options.absolute base) before) name) after := by
    unfold descend
    rw [foldl_append]
    rfl
  obtain ⟨back, shape⟩ := descend_below plain after _ file last some_ (leads_after before accepted.leads)
  rw [whole] at found
  exact matchesDirectoryParts_of_file some_ shape found
end

section
variable {options : MatchFilesOptions} {host : Host}

theorem addFiles_ok (path absolutePath : Text) (files : List Text) (s : Found)
    (tests : ∀ file ∈ files, (options.visitor host).hasExtension file = true →
      ∃ found, fileTest options host absolutePath file = .ok found) : ∃ s',
    files.foldlM ((options.visitor host).addFile (ensureTrailingSlash path) (ensureTrailingSlash absolutePath)) s = .ok s' := by
  induction files generalizing s with
  | nil => exact ⟨s, rfl⟩
  | cons file files ih =>
    have step : ∃ s₁, (options.visitor host).addFile (ensureTrailingSlash path) (ensureTrailingSlash absolutePath) s file =
        .ok s₁ := by
      unfold GlobVisitor.addFile
      split
      · rename_i extension
        obtain ⟨found, test⟩ := tests file (by simp) extension
        unfold fileTest at test
        change ∃ s₁, ((options.matcher host .files).matchesFileParts _ _).bind _ = _
        rw [test, bind_ok]
        cases found with
        | none => exact ⟨s, rfl⟩
        | some index => exact ⟨_, rfl⟩
      · exact ⟨s, rfl⟩
    obtain ⟨s₁, first⟩ := step
    obtain ⟨s', rest⟩ := ih s₁ fun other listed => tests other (mem_cons_of_mem _ listed)
    exact ⟨s', by rw [foldlM_cons, first]; exact rest⟩

mutual

theorem visit_ok (plain : host.Plain) : ∀ (tree : Tree) (path absolutePath resolvedRealpath : Text) (s : Found),
    host.directory absolutePath = tree →
    (∀ names, Reached options host absolutePath names → Unsliced options host (descend absolutePath names)) →
    ∃ s', visit (options.visitor host) host tree path absolutePath unlimitedDepth resolvedRealpath s = .ok s'
  | .node files directories, path, absolutePath, resolvedRealpath, s, shape, fine => by
    have unsliced : Unsliced options host absolutePath := fine [] trivial
    have tests := unsliced.files
    rw [shape] at tests
    have listed : ∀ name child, directories.Lists name child → (host.directory absolutePath).directories.Lists name child := by
      rw [shape]
      exact fun _ _ => id
    rw [visit]
    dsimp only
    generalize (if resolvedRealpath = [] then host.realpath absolutePath else resolvedRealpath) = realpath
    split
    · exact ⟨s, rfl⟩
    obtain ⟨s₁, first⟩ := addFiles_ok path absolutePath files
      { s with visited := canonicalFileName realpath host.useCaseSensitiveFileNames :: s.visited } tests
    obtain ⟨s', rest⟩ := visitDirectories_ok plain directories path absolutePath realpath s₁ listed fine
    refine ⟨s', ?_⟩
    rw [first, monad_bind, bind_ok, if_neg (by simp), if_pos rfl]
    exact rest

theorem visitDirectories_ok (plain : host.Plain) : ∀ (directories : Forest) (path absolutePath realpath : Text) (s : Found),
    (∀ name child, directories.Lists name child → (host.directory absolutePath).directories.Lists name child) →
    (∀ names, Reached options host absolutePath names → Unsliced options host (descend absolutePath names)) →
    ∃ s', visitDirectories (options.visitor host) host directories path absolutePath unlimitedDepth realpath s = .ok s'
  | .none, path, absolutePath, realpath, s, listed, fine => ⟨s, rfl⟩
  | .more name child rest, path, absolutePath, realpath, s, listed, fine => by
    have inside := listed name child (.inl ⟨rfl, rfl⟩)
    have unsliced : Unsliced options host absolutePath := fine [] trivial
    obtain ⟨passes, test⟩ := unsliced.directories name child inside
    have later : ∀ name' child', rest.Lists name' child' → (host.directory absolutePath).directories.Lists name' child' :=
      fun name' child' member => listed name' child' (.inr member)
    unfold directoryTest at test
    rw [visitDirectories]
    change ∃ s', ((options.matcher host .directories).matchesDirectoryParts _ _).bind _ = _
    rw [test, bind_ok]
    cases passes with
    | false => exact visitDirectories_ok plain rest path absolutePath realpath s later fine
    | true =>
      obtain ⟨s₁, first⟩ := visit_ok plain child (enter path name) (enter absolutePath name)
        (childRealpath host absolutePath realpath name) s (plain.child _ _ _ inside)
        fun names reached => fine (name :: names) ⟨⟨child, inside⟩, test, reached⟩
      obtain ⟨s', last⟩ := visitDirectories_ok plain rest path absolutePath realpath s₁ later fine
      refine ⟨s', ?_⟩
      change (visit _ _ _ (enter path name) (enter absolutePath name) _ _ _).bind _ = _
      rw [first]
      exact last
end

variable (plain : host.Plain) (unlimited : options.depth = unlimitedDepth)
  (grounded : ∀ base ∈ options.basePaths host, IsGrounded (options.absolute base))
include plain unlimited grounded

omit plain unlimited in
theorem here_base {base : Text} (listed : base ∈ options.basePaths host) :
    Here options host (host.directory (options.absolute base)) base (options.absolute base) := by
  refine ⟨rfl, ⟨base, listed, [], rfl, rfl⟩, ?_⟩
  have solid : ∀ left right : Text, IsGrounded (combinePaths left right) → Solid (combinePaths left right) := by
    intro left right
    unfold combinePaths
    split
    · exact solid_normalizePath
    · split
      · exact solid_normalizePath
      · exact solid_normalizePath
  exact solid _ _ (grounded base listed)

theorem visitBases_spec : ∀ (bases : List Text) (s s' : Found), (∀ base ∈ bases, base ∈ options.basePaths host) →
    Roomy options host s → bases.foldlM (visitBase options host) s = .ok s' →
    Visits options host s s' ∧ ∀ base ∈ bases, key host (options.absolute base) ∈ s'.visited := by
  intro bases
  induction bases with
  | nil =>
    intro s s' _ _ ran
    cases ran
    exact ⟨⟨.refl s, fun k member => .inl member⟩, by simp⟩
  | cons base bases ih =>
    intro s s' listed roomy ran
    obtain ⟨s₁, first, rest⟩ := bind_eq_ok ran
    rw [visitBase, unlimited] at first
    obtain ⟨visits, seen⟩ := visit_spec plain _ _ _ _ s s₁ (here_base grounded (listed base (by simp)))
      (.inl rfl) roomy first
    obtain ⟨visits', seen'⟩ := ih s₁ s' (fun other member => listed other (mem_cons_of_mem _ member))
      (visits.1.length.trans roomy) rest
    refine ⟨visits.trans visits', fun other member => ?_⟩
    rcases mem_cons.mp member with rfl | later
    · exact visits'.1.visited _ seen
    · exact seen' other later

theorem matchFiles_spec {results : List Text} (ran : matchFiles options host = .ok results) :
    ∃ s : Found, s.results.flatten = results ∧ (∀ k ∈ s.visited, Done options host s k) ∧
      ∀ base ∈ options.basePaths host, key host (options.absolute base) ∈ s.visited := by
  obtain ⟨s, walked, result⟩ := bind_eq_ok ran
  have roomy : Roomy options host
      { results := List.replicate (max (options.visitor host).fileMatcher.includes.length 1) [] } := length_replicate
  obtain ⟨visits, seen⟩ := visitBases_spec plain unlimited grounded _ _ s (fun _ => id) roomy walked
  refine ⟨s, Outcome.ok.inj result, fun k member => ?_, seen⟩
  rcases visits.2 k member with old | done
  · cases old
  · exact done

omit unlimited grounded in
theorem Done.at_key {s : Found} {absolutePath : Text} (done : Done options host s (key host absolutePath)) :
    ∃ path other, Located options host path other ∧ key host other = key host absolutePath ∧
      (∀ file ∈ (host.directory absolutePath).files, (options.visitor host).hasExtension file = true →
        ∃ found, fileTest options host absolutePath file = .ok found ∧
          (found.isSome = true → ensureTrailingSlash path ++ file ∈ s.results.flatten)) ∧
      ∀ name tree, (host.directory absolutePath).directories.Lists name tree →
        ∃ passes, directoryTest options host absolutePath name = .ok passes ∧
          (passes = true → key host (enter absolutePath name) ∈ s.visited) := by
  obtain ⟨path, other, located, same, scanned⟩ := done
  have tree := plain.alike _ _ same
  have fronts := canonical_ensureTrailingSlash same
  refine ⟨path, other, located, same, fun file listed extension => ?_, fun name child listed => ?_⟩
  · rw [← tree] at listed
    obtain ⟨found, test, added⟩ := scanned.files file listed extension
    exact ⟨found, (matchesFileParts_canonical fronts).symm.trans test, added⟩
  rw [← tree] at listed
  obtain ⟨passes, test, seen⟩ := scanned.directories name child listed
  refine ⟨passes, (matchesDirectoryParts_canonical fronts).symm.trans test, fun pass => ?_⟩
  have entered : key host (enter other name) = key host (enter absolutePath name) := canonical_enter same name
  rw [← entered]
  exact seen pass

omit unlimited grounded in
theorem reached_visited {s : Found} (done : ∀ k ∈ s.visited, Done options host s k) (names : List Text) : ∀ path,
    key host path ∈ s.visited → Reached options host path names → key host (descend path names) ∈ s.visited := by
  induction names with
  | nil => exact fun path seen _ => seen
  | cons name names ih =>
    intro path seen reached
    obtain ⟨⟨tree, listed⟩, passes, later⟩ := reached
    obtain ⟨_, _, _, _, _, directories⟩ := (done _ seen).at_key plain
    obtain ⟨passes', test, next⟩ := directories name tree listed
    have pass : passes' = true := Outcome.ok.inj (test.symm.trans passes)
    exact ih (enter path name) (next pass) later

omit unlimited grounded in
theorem Accepted.reached {base file : Text} {names : List Text} (accepted : Accepted options host base names file)
    (fine : ∀ names, Reached options host (options.absolute base) names →
      Unsliced options host (descend (options.absolute base) names)) : ∀ before after, names = before ++ after →
    Reached options host (options.absolute base) before := by
  intro before
  induction before using List.reverseRecOn with
  | nil => exact fun _ _ => trivial
  | append_singleton before name ih =>
    intro after shape
    have cut : names = before ++ name :: after := by
      rw [shape]
      simp
    have reached := ih (name :: after) cut
    have leads := accepted.leads
    rw [cut] at leads
    obtain ⟨tree, listed⟩ := leads_append before leads
    obtain ⟨passes, test⟩ := (fine before reached).directories name tree listed
    have open_ : directoryTest options host (descend (options.absolute base) before) name ≠ .ok false := by
      rw [cut] at accepted
      exact accepted.passes plain
    cases passes with
    | false => exact absurd test open_
    | true => exact reached_concat before reached ⟨tree, listed⟩ test

omit grounded in
theorem matchFiles_ok (fine : ∀ base ∈ options.basePaths host, ∀ names, Reached options host (options.absolute base) names →
    Unsliced options host (descend (options.absolute base) names)) : ∃ results, matchFiles options host = .ok results := by
  have walk : ∀ (bases : List Text) (s : Found), (∀ base ∈ bases, base ∈ options.basePaths host) →
      ∃ s', bases.foldlM (visitBase options host) s = .ok s' := by
    intro bases
    induction bases with
    | nil => exact fun s _ => ⟨s, rfl⟩
    | cons base bases ih =>
      intro s listed
      obtain ⟨s₁, first⟩ := visit_ok plain _ base (options.absolute base) [] s rfl (fine base (listed base (by simp)))
      obtain ⟨s', rest⟩ := ih s₁ fun other member => listed other (mem_cons_of_mem _ member)
      refine ⟨s', ?_⟩
      rw [foldlM_cons, visitBase, unlimited, first]
      exact rest
  obtain ⟨s, walked⟩ := walk (options.basePaths host)
    { results := List.replicate (max (options.visitor host).fileMatcher.includes.length 1) [] } fun _ => id
  refine ⟨s.results.flatten, ?_⟩
  unfold matchFiles
  dsimp only
  rw [walked]
  rfl

/-- No directory on the way to an accepted file is turned away; and all accepted files are returned
exactly when no name in a directory that the walk gets to is cut inside a character. -/
theorem matchFiles_pruning :
    (∀ base file name before after, Accepted options host base (before ++ name :: after) file →
      directoryTest options host (descend (options.absolute base) before) name ≠ .ok false) ∧
    (Returns options host ↔ ∀ base ∈ options.basePaths host, ∀ names, Reached options host (options.absolute base) names →
      Unsliced options host (descend (options.absolute base) names)) := by
  refine ⟨fun base file name before after accepted => accepted.passes plain, ?_, ?_⟩
  · rintro ⟨results, ran, -⟩ base listed names reached
    obtain ⟨s, -, done, seen⟩ := matchFiles_spec plain unlimited grounded ran
    have visited := reached_visited plain done names _ (seen base listed) reached
    obtain ⟨_, _, _, _, files, directories⟩ := (done _ visited).at_key plain
    refine ⟨fun file member extension => ?_, fun name tree member => ?_⟩
    · obtain ⟨found, test, -⟩ := files file member extension
      exact ⟨found, test⟩
    · obtain ⟨passes, test, -⟩ := directories name tree member
      exact ⟨passes, test⟩
  intro fine
  obtain ⟨results, ran⟩ := matchFiles_ok plain unlimited fine
  obtain ⟨s, flat, done, seen⟩ := matchFiles_spec plain unlimited grounded ran
  refine ⟨results, ran, fun base listed names file accepted => ?_⟩
  have reached := accepted.reached plain (fine base listed) names [] (by simp)
  have visited := reached_visited plain done names _ (seen base listed) reached
  obtain ⟨path, other, ⟨base', listed', names', rfl, rfl⟩, same, files, -⟩ := (done _ visited).at_key plain
  obtain ⟨found, test, added⟩ := files file accepted.listed accepted.extension
  obtain ⟨index, accepts⟩ := accepted.accepted
  have some_ : found.isSome = true := by
    rw [Outcome.ok.inj (test.symm.trans accepts)]
    rfl
  exact ⟨base', listed', names', same, flat ▸ added some_⟩
end

def flatHost (files : List Text) : Host where
  directory path := .node (if path = "/p".toList then files else []) .none
  symlinks _ := some []
  realpath path := path
  useCaseSensitiveFileNames := true

theorem flatHost_plain (files : List Text) : (flatHost files).Plain where
  unlinked _ _ known := (Option.some.inj known).symm
  real _ := rfl
  child _ _ _ listed := absurd listed id
  named _ _ _ listed := absurd listed id
  alike _ _ same := congrArg (flatHost files).directory same

def typeScriptFiles : MatchFilesOptions where
  path := "/p".toList
  extensions := []
  excludes := []
  includes := ["*.ts".toList]
  currentDirectory := "/p".toList
  depth := unlimitedDepth

/-- A name that ends in a wide character and two narrow ones: the walk ends before it returns the others. -/
theorem wideName_ends :
    matchFiles typeScriptFiles (flatHost ["a.ts".toList, "é.d".toList]) = .panic notBoundary ∧
      fileTest typeScriptFiles (flatHost ["a.ts".toList, "é.d".toList]) "/p".toList "a.ts".toList = .ok (some 0) ∧
      matchFiles typeScriptFiles (flatHost ["a.ts".toList]) = .ok ["/p/a.ts".toList] := by
  decide +kernel

theorem matchFiles_pruning_wide : ¬Returns typeScriptFiles (flatHost ["a.ts".toList, "é.d".toList]) := by
  have bases : typeScriptFiles.basePaths (flatHost ["a.ts".toList, "é.d".toList]) = ["/p".toList] := by decide +kernel
  have grounded : ∀ base ∈ typeScriptFiles.basePaths (flatHost ["a.ts".toList, "é.d".toList]),
      IsGrounded (typeScriptFiles.absolute base) := by
    rw [bases]
    intro base listed
    rw [mem_singleton.mp listed]
    exact ⟨by decide +kernel, by decide +kernel⟩
  intro returns
  have fine := (matchFiles_pruning (flatHost_plain _) rfl grounded).2.mp returns
  have place : typeScriptFiles.absolute "/p".toList = "/p".toList := by decide +kernel
  have unsliced := fine "/p".toList (by rw [bases]; simp) [] trivial
  have path : descend (typeScriptFiles.absolute "/p".toList) [] = "/p".toList := place
  rw [path] at unsliced
  obtain ⟨found, test⟩ := unsliced.files "é.d".toList (by decide +kernel) rfl
  have cut : fileTest typeScriptFiles (flatHost ["a.ts".toList, "é.d".toList]) "/p".toList "é.d".toList =
      .panic notBoundary := by decide +kernel
  rw [cut] at test
  cases test

end TypeScriptRs.Vfsmatch
