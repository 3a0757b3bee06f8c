import TypeScriptRs.Vfsmatch.Walk

/-! The walk over a file system whose directories may be linked to each other: the fuel bounds the depth of the calls. -/
namespace TypeScriptRs.Vfsmatch
open Machine Utf8

structure Entries where
  files : List Text
  directories : List Text
  symlinks : Option (List Text)

/-- A file system: the entries of a directory, and the path without links of a path. -/
structure LinkedHost where
  getAccessibleEntries : Text → Entries
  realpath : Text → Text
  useCaseSensitiveFileNames : Bool

/-- What a walk has found, and the directories whose entries it has read. -/
structure Walked where
  found : Found
  opened : List Text

def outOfFuel : String := "out of fuel"

/-- The name that a child directory is remembered by, if it is known not to be a link. -/
def Entries.childRealpath (entries : Entries) (realpath dir : Text) : Text :=
  match entries.symlinks with
  | some symlinks => if dir ∉ symlinks then combinePaths realpath dir else []
  | none => []

def GlobVisitor.visitChild (v : GlobVisitor) (visit : Text → Text → Text → Walked → Outcome Walked) (entries : Entries)
    (path absolutePath realpath : Text) (s : Walked) (dir : Text) : Outcome Walked := do
  let passes ← v.directoryMatcher.matchesDirectoryParts (ensureTrailingSlash absolutePath) dir
  if passes then
    visit (ensureTrailingSlash path ++ dir) (ensureTrailingSlash absolutePath ++ dir) (entries.childRealpath realpath dir) s
  else .ok s

def GlobVisitor.visit (v : GlobVisitor) (host : LinkedHost) : Nat → Int → Text → Text → Text → Walked → Outcome Walked
  | 0, _, _, _, _, _ => .err outOfFuel
  | fuel + 1, depth, path, absolutePath, resolvedRealpath, s =>
    let realpath := if resolvedRealpath = [] then host.realpath absolutePath else resolvedRealpath
    let canonical := canonicalFileName realpath host.useCaseSensitiveFileNames
    if canonical ∈ s.found.visited then .ok s
    else do
      let entries := host.getAccessibleEntries absolutePath
      let found ← entries.files.foldlM (v.addFile (ensureTrailingSlash path) (ensureTrailingSlash absolutePath))
        { s.found with visited := canonical :: s.found.visited }
      let s : Walked := ⟨found, s.opened ++ [absolutePath]⟩
      let nextDepth := if depth = unlimitedDepth then depth else depth - 1
      if depth ≠ unlimitedDepth ∧ nextDepth = 0 then pure s
      else entries.directories.foldlM (v.visitChild (v.visit host fuel nextDepth) entries path absolutePath realpath) s

namespace LinkedHost

variable (host : LinkedHost) (options : MatchFilesOptions)

def matcher (usage : Usage) : GlobMatcher :=
  newGlobMatcher options.includes options.excludes
    (combinePaths (normalizePath options.currentDirectory) (normalizePath options.path)) host.useCaseSensitiveFileNames usage

def visitor : GlobVisitor where
  fileMatcher := host.matcher options .files
  directoryMatcher := host.matcher options .directories
  extensions := options.extensions

def visitBases (fuel : Nat) : Outcome Walked :=
  (getBasePaths (normalizePath options.path) options.includes host.useCaseSensitiveFileNames).foldlM
    (fun s basePath => (host.visitor options).visit host fuel options.depth basePath (options.absolute basePath) [] s)
    ⟨{ results := List.replicate (max (host.visitor options).fileMatcher.includes.length 1) [] }, []⟩

def matchFiles (fuel : Nat) : Outcome (List Text) := do
  let s ← host.visitBases options fuel
  pure s.found.results.flatten

end LinkedHost

section
variable {p : GlobPattern} {segments : List Segment} {value : Text}
variable {α : Type} {after : List Text → Outcome Bool} {test : GlobPattern → Outcome Bool}

def Answers {α : Type} (x : Outcome α) : Prop := Outcome.Finishes (fun _ => True) x

theorem Answers.ok (a : α) : Answers (.ok a) := Outcome.Finishes.pure trivial

theorem Answers.bind {β : Type} {x : Outcome α} {f : α → Outcome β} (first : Answers x) (rest : ∀ a, Answers (f a)) : Answers (x >>= f) :=
  Outcome.Finishes.bind first fun a _ => rest a

theorem sliced_answers (text : Option Text) : Answers (sliced text) := by
  cases text with
  | none => exact Outcome.Finishes.panic notBoundary
  | some text => exact .ok text

theorem turn_answers (s : GlobPattern.Scan) : Answers (p.turn s) := by
  unfold GlobPattern.turn
  split
  · split
    · refine (sliced_answers _).bind fun part => ?_
      split
      · exact .ok _
      · exact .ok _
    · exact .ok _
  · split
    · exact .ok _
    · exact .ok _
  · exact .ok _
  · exact .ok _

theorem matchSegmentsFrom_answers (s : GlobPattern.Scan) : Answers (p.matchSegmentsFrom s) := by
  fun_induction GlobPattern.matchSegmentsFrom p s with
  | case1 s ends => exact .ok _
  | case2 s go s' next ih => exact ih
  | case3 s go next => exact .ok _
  | case4 s go m next => exact absurd next ((turn_answers s).1 m)
  | case5 s go m next => exact Outcome.Finishes.panic m

theorem matchWildcard_answers (segments : List Segment) (value : Text) : Answers (p.matchWildcard segments value) := by
  unfold GlobPattern.matchWildcard
  split
  · exact .ok _
  split
  · split
    · exact (sliced_answers _).bind fun last => .ok _
    · exact .ok _
  · exact (matchSegmentsFrom_answers _).bind fun matched => .ok _

theorem overParts_answers (later : ∀ parts, Answers (after parts)) (atEnd : Bool) (parts : List Text) :
    Answers (p.overParts after atEnd parts) := by
  induction parts with
  | nil => exact .ok _
  | cons part parts ih =>
    refine (later _).bind fun matched => ?_
    split
    · exact .ok _
    · split
      · exact .ok _
      · exact ih

theorem onePart_answers (later : ∀ parts, Answers (after parts)) (prefixOnly : Bool)
    {takes : Text → Outcome Bool} (taken : ∀ part, Answers (takes part)) (parts : List Text) :
    Answers (GlobPattern.onePart after prefixOnly takes parts) := by
  cases parts with
  | nil => exact .ok _
  | cons part parts =>
    refine (taken part).bind fun t => ?_
    split
    · exact later parts
    · exact .ok _

theorem matchPathParts_answers (prefixOnly : Bool) (components : List Component) (parts : List Text) :
    Answers (p.matchPathParts prefixOnly components parts) := by
  induction components generalizing parts with
  | nil => exact .ok _
  | cons component components ih =>
    cases component with
    | doubleAsterisk => exact overParts_answers ih _ parts
    | literal text => exact onePart_answers ih prefixOnly (fun part => .ok _) parts
    | wildcard segments skip =>
      refine onePart_answers ih prefixOnly (fun part => ?_) parts
      unfold GlobPattern.takesWildcard
      split
      · exact .ok _
      · exact matchWildcard_answers segments part

theorem anyMatches_answers (each : ∀ p, Answers (test p)) (patterns : List GlobPattern) : Answers (anyMatches test patterns) := by
  induction patterns with
  | nil => exact .ok _
  | cons p patterns ih =>
    refine (each p).bind fun matched => ?_
    split
    · exact .ok _
    · exact ih

theorem positionMatches_answers (each : ∀ p, Answers (test p)) (start : Nat)
    (patterns : List GlobPattern) : Answers (positionMatches test start patterns) := by
  induction patterns generalizing start with
  | nil => exact .ok _
  | cons p patterns ih =>
    refine (each p).bind fun matched => ?_
    split
    · exact .ok _
    · exact ih _

theorem matchesFileParts_answers (m : GlobMatcher) (front name : Text) : Answers (m.matchesFileParts front name) := by
  refine (anyMatches_answers (fun p => matchPathParts_answers false p.components _) m.excludes).bind fun excluded => ?_
  split
  · exact .ok _
  · split
    · exact .ok _
    · exact positionMatches_answers (fun p => matchPathParts_answers false p.components _) 0 m.includes

theorem matchesDirectoryParts_answers (m : GlobMatcher) (front name : Text) : Answers (m.matchesDirectoryParts front name) := by
  refine (anyMatches_answers (fun p => matchPathParts_answers false p.components _) m.excludes).bind fun excluded => ?_
  split
  · exact .ok _
  · split
    · exact .ok _
    · exact anyMatches_answers (fun p => matchPathParts_answers true p.components _) m.includes
end

theorem foldlM_agrees {α σ : Type} {turn turn' : σ → α → Outcome σ} (agree : ∀ s a, (∀ m, turn s a ≠ .err m) → turn' s a = turn s a)
    (list : List α) (s : σ) (answers : ∀ m, list.foldlM turn s ≠ .err m) : list.foldlM turn' s = list.foldlM turn s := by
  induction list generalizing s with
  | nil => rfl
  | cons a list ih =>
    rw [List.foldlM_cons] at answers
    rw [List.foldlM_cons, List.foldlM_cons]
    have first : ∀ m, turn s a ≠ .err m := by
      intro m failed
      exact answers m (by rw [failed]; rfl)
    rw [agree s a first]
    cases next : turn s a with
    | ok s' =>
      rw [next] at answers
      exact ih s' answers
    | err m => rfl
    | panic m => rfl

theorem visit_more (v : GlobVisitor) (host : LinkedHost) (fuel : Nat) (depth : Int) (path absolutePath resolvedRealpath : Text) (s : Walked)
    (answers : ∀ m, v.visit host fuel depth path absolutePath resolvedRealpath s ≠ .err m) :
    v.visit host (fuel + 1) depth path absolutePath resolvedRealpath s = v.visit host fuel depth path absolutePath resolvedRealpath s := by
  induction fuel generalizing depth path absolutePath resolvedRealpath s with
  | zero => exact absurd rfl (answers outOfFuel)
  | succ fuel ih =>
    rw [GlobVisitor.visit] at answers ⊢
    rw [GlobVisitor.visit]
    dsimp only at answers ⊢
    generalize (if depth = unlimitedDepth then depth else depth - 1) = nextDepth at answers ⊢
    generalize (if resolvedRealpath = [] then host.realpath absolutePath else resolvedRealpath) = realpath at answers ⊢
    by_cases seen : canonicalFileName realpath host.useCaseSensitiveFileNames ∈ s.found.visited
    · rw [if_pos seen, if_pos seen]
    rw [if_neg seen] at answers
    rw [if_neg seen, if_neg seen]
    cases files : (host.getAccessibleEntries absolutePath).files.foldlM
        (v.addFile (ensureTrailingSlash path) (ensureTrailingSlash absolutePath))
        { s.found with visited := canonicalFileName realpath host.useCaseSensitiveFileNames :: s.found.visited } with
    | err m => rfl
    | panic m => rfl
    | ok found =>
      rw [files, Outcome.monad_bind, Outcome.bind_ok] at answers
      rw [Outcome.monad_bind, Outcome.bind_ok, Outcome.monad_bind, Outcome.bind_ok]
      by_cases stop : depth ≠ unlimitedDepth ∧ nextDepth = 0
      · rw [if_pos stop, if_pos stop]
      rw [if_neg stop] at answers
      rw [if_neg stop, if_neg stop]
      refine foldlM_agrees ?_ _ _ answers
      intro s' name answers'
      unfold GlobVisitor.visitChild at answers' ⊢
      cases passes : v.directoryMatcher.matchesDirectoryParts (ensureTrailingSlash absolutePath) name with
      | err m => rfl
      | panic m => rfl
      | ok passes' =>
        rw [passes, Outcome.monad_bind, Outcome.bind_ok] at answers'
        cases passes' with
        | false => rfl
        | true =>
          exact ih _ _ _ _ _ answers'

theorem visitBases_more {host : LinkedHost} {options : MatchFilesOptions} {fuel : Nat}
    (answers : ∀ m, host.visitBases options fuel ≠ .err m) : host.visitBases options (fuel + 1) = host.visitBases options fuel :=
  foldlM_agrees (fun s _ => visit_more _ host fuel _ _ _ _ s) _ _ answers

def Forest.names : Forest → List Text
  | .none => []
  | .more name _ rest => name :: rest.names

mutual

def Tree.height : Tree → Nat
  | .node _ directories => directories.height + 1

def Forest.height : Forest → Nat
  | .none => 0
  | .more _ tree rest => max tree.height rest.height
end

def Host.linked (host : Host) : LinkedHost where
  getAccessibleEntries path := ⟨(host.directory path).files, (host.directory path).directories.names, host.symlinks path⟩
  realpath := host.realpath
  useCaseSensitiveFileNames := host.useCaseSensitiveFileNames

def foundBy (x : Outcome Walked) : Outcome Found := x.bind fun s => .ok s.found

theorem foundBy_bind {α : Type} (x : Outcome α) (f : α → Outcome Walked) : foundBy (x >>= f) = x >>= fun a => foundBy (f a) := by
  cases x <;> rfl

theorem foundBy_then {x : Outcome Walked} {y : Outcome Found} {f : Walked → Outcome Walked} {g : Found → Outcome Found}
    (first : foundBy x = y) (later : ∀ s, foundBy (f s) = g s.found) : foundBy (x >>= f) = y >>= g := by
  subst first
  cases x with
  | ok s => exact later s
  | err m => rfl
  | panic m => rfl

/-- A directory's path shows the tree that is listed in its parent. -/
def Host.Nested (host : Host) : Prop := ∀ path name tree, (host.directory path).directories.Lists name tree →
  host.directory (ensureTrailingSlash path ++ name) = tree

variable {v : GlobVisitor} {host : Host}

mutual

theorem visit_linked (nested : host.Nested) : ∀ (tree : Tree) (fuel : Nat) (depth : Int) (path absolutePath resolvedRealpath : Text) (s : Walked),
    host.directory absolutePath = tree → tree.height ≤ fuel →
    foundBy (v.visit host.linked fuel depth path absolutePath resolvedRealpath s) =
      Vfsmatch.visit v host tree path absolutePath depth resolvedRealpath s.found
  | .node files directories, 0, _, _, _, _, _, _, enough => by cases enough
  | .node files directories, fuel + 1, depth, path, absolutePath, resolvedRealpath, s, here, enough => by
    have enough' : directories.height ≤ fuel := Nat.le_of_succ_le_succ enough
    have entries : host.linked.getAccessibleEntries absolutePath = ⟨files, directories.names, host.symlinks absolutePath⟩ := by
      have parts : host.linked.getAccessibleEntries absolutePath = ⟨(host.directory absolutePath).files,
        (host.directory absolutePath).directories.names, host.symlinks absolutePath⟩ := rfl
      rw [parts, here]
      rfl
    have below : ∀ name tree, directories.Lists name tree → host.directory (ensureTrailingSlash absolutePath ++ name) = tree := by
      intro name tree listed
      refine nested absolutePath name tree ?_
      rw [here]
      exact listed
    have realpath_eq : host.linked.realpath = host.realpath := rfl
    have names_eq : host.linked.useCaseSensitiveFileNames = host.useCaseSensitiveFileNames := rfl
    rw [GlobVisitor.visit, Vfsmatch.visit, entries, realpath_eq, names_eq]
    dsimp only
    generalize (if depth = unlimitedDepth then depth else depth - 1) = nextDepth
    generalize (if resolvedRealpath = [] then host.realpath absolutePath else resolvedRealpath) = realpath
    by_cases seen : canonicalFileName realpath host.useCaseSensitiveFileNames ∈ s.found.visited
    · rw [if_pos seen, if_pos seen]
      rfl
    rw [if_neg seen, if_neg seen, foundBy_bind]
    refine bind_congr fun found => ?_
    by_cases stop : depth ≠ unlimitedDepth ∧ nextDepth = 0
    · rw [if_pos stop, if_pos stop]
      rfl
    · rw [if_neg stop, if_neg stop]
      exact visitDirectories_linked nested directories fuel nextDepth files directories.names path absolutePath realpath
        ⟨found, s.opened ++ [absolutePath]⟩ below enough'

theorem visitDirectories_linked (nested : host.Nested) : ∀ (forest : Forest) (fuel : Nat) (nextDepth : Int) (files names : List Text)
    (path absolutePath realpath : Text) (s : Walked), (∀ name tree, forest.Lists name tree → host.directory (ensureTrailingSlash absolutePath ++ name) = tree) →
    forest.height ≤ fuel →
    foundBy (forest.names.foldlM (v.visitChild (v.visit host.linked fuel nextDepth) ⟨files, names, host.symlinks absolutePath⟩ path
      absolutePath realpath) s) = visitDirectories v host forest path absolutePath nextDepth realpath s.found
  | .none, _, _, _, _, _, _, _, _, _, _ => rfl
  | .more name tree rest, fuel, nextDepth, files, names, path, absolutePath, realpath, s, below, enough => by
    have here : host.directory (ensureTrailingSlash absolutePath ++ name) = tree := below name tree (.inl ⟨rfl, rfl⟩)
    have enough₁ : tree.height ≤ fuel := Nat.le_trans (Nat.le_max_left _ _) enough
    have enough₂ : rest.height ≤ fuel := Nat.le_trans (Nat.le_max_right _ _) enough
    rw [visitDirectories, Forest.names, List.foldlM_cons, GlobVisitor.visitChild, bind_assoc, foundBy_bind]
    refine bind_congr fun passes => ?_
    have later := fun s' => visitDirectories_linked nested rest fuel nextDepth files names path absolutePath realpath s'
      (fun name' tree' listed => below name' tree' (.inr listed)) enough₂
    cases passes with
    | false => exact later s
    | true => exact foundBy_then (visit_linked nested tree fuel nextDepth _ _ _ s here enough₁) later
end

/-- On a tree of directories the walk makes calls no deeper than the tree is high, and finds what the recursion on it finds. -/
theorem matchFiles_linked (nested : host.Nested) (options : MatchFilesOptions) (fuel : Nat)
    (enough : ∀ path, (host.directory path).height ≤ fuel) : host.linked.matchFiles options fuel = Vfsmatch.matchFiles options host := by
  have each : ∀ (bases : List Text) (s : Walked),
      foundBy (bases.foldlM (fun s base =>
        (host.linked.visitor options).visit host.linked fuel options.depth base (options.absolute base) [] s) s) =
      bases.foldlM (visitBase options host) s.found := by
    intro bases
    induction bases with
    | nil => exact fun s => rfl
    | cons base bases ih =>
      intro s
      exact foundBy_then (visit_linked nested _ fuel options.depth base _ [] s rfl (enough _)) ih
  have whole := each (options.basePaths host)
    ⟨{ results := List.replicate (max (host.linked.visitor options).fileMatcher.includes.length 1) [] }, []⟩
  have same : foundBy (host.linked.visitBases options fuel) = (options.basePaths host).foldlM (visitBase options host)
    { results := List.replicate (max (options.visitor host).fileMatcher.includes.length 1) [] } := whole
  unfold LinkedHost.matchFiles Vfsmatch.matchFiles
  dsimp only
  rw [← same]
  cases host.linked.visitBases options fuel <;> rfl

def nestedHost : Host where
  directory path :=
    if path = "/p".toList then .node [] (.more ['q'] (.node ["b.ts".toList] .none) .none)
    else .node (if path = "/p/q".toList then ["b.ts".toList] else []) .none
  symlinks _ := some []
  realpath := id
  useCaseSensitiveFileNames := true

theorem matchFiles_linked_nested : nestedHost.linked.matchFiles ⟨"/p".toList, [], [], [], "/".toList, unlimitedDepth⟩ 2 =
    .ok ["/p/q/b.ts".toList] := by
  refine (matchFiles_linked (fun path name tree listed => ?_) _ 2 fun path => ?_).trans (by decide +kernel)
  · by_cases here : path = "/p".toList
    · subst here
      obtain ⟨rfl, rfl⟩ | ⟨⟨⟩⟩ := listed
      rfl
    · have leaf : nestedHost.directory path = .node _ .none := if_neg here
      rw [leaf] at listed
      cases listed
  · unfold nestedHost
    dsimp only
    split
    · decide
    · exact Nat.le_succ 1

end TypeScriptRs.Vfsmatch
