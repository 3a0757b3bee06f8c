import TypeScriptRs.Lsconv.DocumentUri
import TypeScriptRs.Paths.Containment

/-! The directories that are watched for the files that a program looks up. -/
namespace TypeScriptRs.Project.Watch
open Utf8 Machine Paths Comparison Prefixes List
open Resolver (normalizePath isRootedDiskPath)

section
variable (toLowercase : Char → Text)

def getRecursiveGlobPattern (directory : Text) : Text := removeTrailingDirectorySeparator directory ++ "/**/*".toList

def minWatchLocationDepth : Nat := 2

def isDriveRoot : Text → Bool
  | [c, ':', '/'] => isVolumeCharacter c
  | _ => false

def perceivedOsRootLengthForWatching : List Text → Nat
  | [] => 0
  | [_] => 1
  | root :: first :: rest =>
    let length := rest.length + 2
    if "//".toList.isPrefixOf root then 2
    else if isDriveRoot root then
      if first.map Char.toLower = "users".toList then min length 3 else 1
    else if first = "home".toList then min length 3
    else 1

def getPathComponentsForWatching (path currentDirectory : Text) : List Text :=
  let components := getPathComponents path currentDirectory
  let rootLength := perceivedOsRootLengthForWatching components
  if rootLength ≤ 1 then components
  else combinePaths (components.headD []) ((components.take rootLength).tail) :: components.drop rootLength

variable (options : ComparePathsOptions)

def watchComponents (path : Text) : List Text := reducePathComponents (getPathComponentsForWatching path options.currentDirectory)

def getCommonParentsForWatchingWorker : Nat → List (List Text) → Nat → Outcome (List (List Text)) :=
  getCommonParentsWorker toLowercase options

def getCommonParentsForWatching (paths : List Text) (minComponents : Nat) : Outcome (List Text × Finset Text) :=
  if minComponents < 1 then .panic "minComponents must be at least 1"
  else
    match paths with
    | [] => .ok ([], ∅)
    | [path] => if (watchComponents options path).length < minComponents then .ok ([], {path}) else .ok ([path], ∅)
    | paths => do
      let ignored := paths.filter fun path => (watchComponents options path).length < minComponents
      let pathComponents := (paths.map (watchComponents options)).filter fun components => ¬ components.length < minComponents
      let parents ← getCommonParentsForWatchingWorker toLowercase options (minComponents + 1) pathComponents minComponents
      pure (parents.map getPathFromPathComponents, ignored.toFinset)

structure PatternsAndIgnored where
  directoriesOutsideWorkspace : List Text
  patternsInsideWorkspace : List Text
  ignored : Finset Text

/-- What is known of the paths so far. The directories are without duplicates. -/
structure Lookups where
  seenDirs : List Text
  includeWorkspace : Bool
  includeRoot : Bool
  includeLib : Bool
  nodeModulesDirectories : List Text
  externalDirectories : List Text

def Lookups.empty : Lookups := ⟨[], false, false, false, [], []⟩

structure Regions where
  workspace : Text
  current : Text
  lib : Text

def insertNew (directory : Text) (directories : List Text) : List Text :=
  if directory ∈ directories then directories else directory :: directories

def nodeModulesDirectory (path : Text) : Option Text :=
  (cutAt "/node_modules/".toList path).map fun cut => cut.1 ++ "/node_modules".toList

variable (regions : Regions)

def addPath (lookups : Lookups) (path : Text) : Lookups :=
  if Lsconv.isDynamicFileName path then lookups
  else
    let directory := getDirectoryPath path
    if directory ∈ lookups.seenDirs then lookups
    else
      let lookups := { lookups with seenDirs := directory :: lookups.seenDirs }
      if pathContainsPath regions.workspace path then { lookups with includeWorkspace := true }
      else if pathContainsPath regions.current path then { lookups with includeRoot := true }
      else if pathContainsPath regions.lib path then { lookups with includeLib := true }
      else
        match nodeModulesDirectory path with
        | some nodeModules => { lookups with nodeModulesDirectories := insertNew nodeModules lookups.nodeModulesDirectories }
        | none => { lookups with externalDirectories := insertNew directory lookups.externalDirectories }

def sortedTexts (texts : List Text) : List Text := sortBy compareText texts

def patternsOf (lookups : Lookups) : Outcome PatternsAndIgnored := do
  let globs := (if lookups.includeWorkspace then [getRecursiveGlobPattern regions.workspace] else []) ++
    (if lookups.includeRoot then [getRecursiveGlobPattern regions.current] else []) ++
    (if lookups.includeLib then [getRecursiveGlobPattern regions.lib] else []) ++
    sortedTexts (lookups.nodeModulesDirectories.map getRecursiveGlobPattern)
  if lookups.externalDirectories = [] then pure ⟨[], globs, ∅⟩
  else do
    let (parents, ignored) ← getCommonParentsForWatching toLowercase ⟨true, []⟩ (sortedTexts lookups.externalDirectories)
      minWatchLocationDepth
    pure ⟨sortedTexts parents, globs, ignored⟩

def regionsOf (workspaceDirectory libDirectory currentDirectory : Text) (useCaseSensitiveFileNames : Bool) : Regions where
  workspace := toPath toLowercase workspaceDirectory currentDirectory useCaseSensitiveFileNames
  current := toPath toLowercase currentDirectory currentDirectory useCaseSensitiveFileNames
  lib := toPath toLowercase libDirectory currentDirectory useCaseSensitiveFileNames

/-- The mapper for the paths of a set, in the order in which they are listed. -/
def resolutionLookupGlobs (workspaceDirectory libDirectory currentDirectory : Text) (useCaseSensitiveFileNames : Bool)
    (data : List Text) : Outcome PatternsAndIgnored :=
  let regions := regionsOf toLowercase workspaceDirectory libDirectory currentDirectory useCaseSensitiveFileNames
  patternsOf toLowercase regions (data.foldl (addPath regions) .empty)
end

section
variable {path root name : Text} {front back names : List Text}

theorem pathComponents_eq (absolute : IsAbsolutePath path) : getPathComponents path [] = rootOf path :: reducedOf path := by
  unfold getPathComponents
  rw [combinePaths_rooted absolute.rooted, normalizeSlashes_of_slashed absolute.slashed]
  unfold pathComponents
  dsimp only
  rw [absolute.afterRoot_eq]
  by_cases bare : reducedOf path = []
  · rw [bare]
    rfl
  have pieces : (join (reducedOf path)).splitOn '/' = reducedOf path :=
    splitOn_intercalate '/' (fun c listed => (absolute.proper c listed).free) bare
  rw [pieces, if_neg]
  intro last
  exact (absolute.proper [] (mem_of_getLast? last)).filled rfl

theorem rootOf_name (regular : Proper name ∧ name ≠ ['.', '.']) (plain : ¬IsDrive name) : rootOf name = [] := by
  have single : join [name] = name := intercalate_singleton
  have none := @rootOf_join name [] (by simpa using regular.1)
    fun like => like.elim plain fun caret => caret.2 rfl
  rwa [single] at none

theorem combineOne_name (closed : root.getLast? = some '/') (proper : ∀ c ∈ front, Proper c)
    (regular : Proper name ∧ name ≠ ['.', '.']) (plain : ¬IsDrive name) :
    combineOne (root ++ join front) name = root ++ join (front ++ [name]) := by
  have some_ : ¬(root ++ join front = [] ∨ getRootLength name ≠ 0) := by
    rw [getRootLength_eq, rootOf_name regular plain, bytes_nil]
    rintro (none | other)
    · rw [(append_eq_nil_iff.mp none).1] at closed
      cases closed
    · exact other rfl
  unfold combineOne
  rw [if_neg regular.1.filled]
  rw [normalizeSlashes_of_slashed regular.1.slashed, if_neg some_]
  by_cases none : front = []
  · have empty : join [] = [] := rfl
    have single : join ([] ++ [name]) = name := intercalate_singleton
    rw [none, empty, single, append_nil, if_pos (hasTrailingDirectorySeparator_of_getLast closed)]
  · have cut : join (front ++ [name]) = join front ++ '/' :: name := Split.intercalate_concat none name
    rw [hasTrailingDirectorySeparator_join root proper none, if_neg Bool.false_ne_true, cut]
    simp

theorem foldl_combineOne (closed : root.getLast? = some '/') (proper : ∀ c ∈ front, Proper c)
    (regular : ∀ c ∈ back, Proper c ∧ c ≠ ['.', '.']) (plain : ∀ c ∈ back, ¬IsDrive c) :
    back.foldl combineOne (root ++ join front) = root ++ join (front ++ back) := by
  induction back generalizing front with
  | nil => rw [foldl_nil, append_nil]
  | cons name back ih =>
    obtain ⟨here, rest⟩ := forall_mem_cons.mp regular
    obtain ⟨noDrive, rest'⟩ := forall_mem_cons.mp plain
    have longer : ∀ c ∈ front ++ [name], Proper c := by
      intro c listed
      rcases mem_append.mp listed with listed | listed
      · exact proper c listed
      · rw [mem_singleton.mp listed]
        exact here.1
    rw [foldl_cons, combineOne_name closed proper here noDrive, ih longer rest rest', append_assoc]
    rfl

def rootNames (path : Text) : List Text :=
  (reducedOf path).take (perceivedOsRootLengthForWatching (rootOf path :: reducedOf path) - 1)

theorem watchComponents_eq (absolute : IsAbsolutePath path) (plain : ∀ name ∈ rootNames path, ¬IsDrive name) :
    ∃ back, reducedOf path = rootNames path ++ back ∧
      watchComponents ⟨true, []⟩ path = (rootOf path ++ join (rootNames path)) :: back := by
  unfold watchComponents getPathComponentsForWatching
  dsimp only
  rw [pathComponents_eq absolute]
  unfold rootNames at plain ⊢
  generalize perceivedOsRootLengthForWatching (rootOf path :: reducedOf path) = length at plain ⊢
  have regular := absolute.regular
  have reduce (first : Text) (names : List Text) (known : ∀ c ∈ names, c ∈ reducedOf path) :
      reducePathComponents (first :: names) = first :: names := by
    have same := foldl_regular first [] fun c listed => regular c (known c listed)
    exact congrArg (first :: ·) same
  split
  · rename_i short
    refine ⟨reducedOf path, ?_, ?_⟩
    · rw [Nat.sub_eq_zero_of_le short, take_zero, nil_append]
    · have empty : join [] = [] := rfl
      rw [reduce _ _ fun _ listed => listed, Nat.sub_eq_zero_of_le short, take_zero, empty, append_nil]
  obtain ⟨count, rfl⟩ : ∃ count, length = count + 1 := ⟨length - 1, by omega⟩
  rw [Nat.add_sub_cancel] at plain ⊢
  refine ⟨(reducedOf path).drop count, (take_append_drop count _).symm, ?_⟩
  rw [take_succ_cons, drop_succ_cons, headD_cons, tail_cons,
    reduce _ _ fun _ listed => mem_of_mem_drop listed]
  congr 1
  unfold combinePaths
  rw [normalizeSlashes_of_slashed (slashed_rootOf absolute.slashed)]
  by_cases bare : reducedOf path = []
  · rw [bare, take_nil]
    exact (append_nil _).symm
  · have all := @foldl_combineOne _ [] _ (absolute.closed bare) (by simp)
      (fun c listed => regular c (mem_of_mem_take listed)) plain
    have empty : join [] = [] := rfl
    rwa [empty, append_nil, nil_append] at all
end

section
variable {toLowercase : Char → Text} {path name parent : Text} {paths kept : List Text}

theorem groupKey_path (absolute : IsAbsolutePath path) : groupKey toLowercase ⟨true, []⟩ path = path := by
  have disk : normalizePath path = path := by
    rw [normalizePath_byComponents absolute.rooted, normalizeSlashes_of_slashed absolute.slashed,
      normalizeByComponents_eq absolute.slashed, absolute.written, Bool.and_not_self, if_neg Bool.false_ne_true]
  have other : getNormalizedAbsolutePath path [] = path := by
    rw [getNormalizedAbsolutePath_eq, absoluteFileName_target, normalizeSlashes_of_slashed absolute.slashed, absolute.written]
  unfold groupKey toPath
  rw [disk, other, ite_self]
  rfl

theorem groupKey_regular (regular : Proper name ∧ name ≠ ['.', '.']) : groupKey toLowercase ⟨true, []⟩ name = name := by
  by_cases drive : IsDrive name
  · exact groupKey_root regular.1.slashed (rootOf_drive drive) regular.1.filled
  have single : join [name] = name := intercalate_singleton
  have unrooted := rootOf_name regular drive
  have same := @normalized_regular [] [name] (by simpa using regular) (by rw [single]; exact unrooted)
  rw [single, nil_append] at same
  unfold groupKey toPath
  rw [isRootedDiskPath_unrooted unrooted, if_neg Bool.false_ne_true, getNormalizedAbsolutePath_eq, absoluteFileName_target,
    normalizeSlashes_of_slashed regular.1.slashed, same]
  rfl

/-- A directory whose components are read as they are written. -/
structure IsPlain (path : Text) : Prop extends IsAbsolutePath path where
  plain : ∀ name ∈ rootNames path, ¬IsDrive name

theorem IsPlain.groupKey (plain : IsPlain path) {place : Nat} {component : Text}
    (here : (watchComponents ⟨true, []⟩ path)[place]? = some component) : groupKey toLowercase ⟨true, []⟩ component = component := by
  obtain ⟨back, names, components⟩ := watchComponents_eq plain.toIsAbsolutePath plain.plain
  rw [components] at here
  cases place with
  | zero =>
    cases here
    exact groupKey_path (plain.front names).2.2
  | succ place =>
    refine groupKey_regular (plain.regular component ?_)
    rw [names]
    exact mem_append_right _ (mem_of_getElem? here)

theorem groupsAlike_watched (plain : ∀ path ∈ kept, IsPlain path) :
    GroupsAlike toLowercase ⟨true, []⟩ (kept.map (watchComponents ⟨true, []⟩)) := by
  intro l member l' member' place a b here there
  obtain ⟨p, known, rfl⟩ := mem_map.mp member
  obtain ⟨q, known', rfl⟩ := mem_map.mp member'
  rw [(plain p known).groupKey here, (plain q known').groupKey there]
  exact Iff.rfl

theorem IsPlain.contains (plain : IsPlain path) {components : List Text} (long : 2 ≤ components.length)
    (begins : components <+: watchComponents ⟨true, []⟩ path) :
    pathContainsPath (getPathFromPathComponents components) path = true := by
  obtain ⟨back, names, shape⟩ := watchComponents_eq plain.toIsAbsolutePath plain.plain
  rw [shape] at begins
  obtain ⟨rest, whole⟩ := begins
  cases components with
  | nil => cases long
  | cons first more =>
    obtain ⟨rfl, rfl⟩ := List.cons.inj whole
    have some_ : more ≠ [] := ne_nil_of_length_pos (Nat.lt_of_succ_lt_succ long)
    have names : reducedOf path = rootNames path ++ (more ++ rest) := names
    have proper := plain.proper
    rw [names] at proper
    have closed := plain.closed (by rw [names]; simp [some_])
    have text : getPathFromPathComponents ((rootOf path ++ join (rootNames path)) :: more) =
        rootOf path ++ join (rootNames path ++ more) := by
      rw [getPathFromPathComponents, if_pos (append_ne_nil_of_left_ne_nil plain.rooted _)]
      unfold ensureTrailingDirectorySeparator
      by_cases none : rootNames path = []
      · have empty : join [] = [] := rfl
        rw [none, empty, append_nil, if_pos (hasTrailingDirectorySeparator_of_getLast closed), nil_append]
      · have cut : join (rootNames path ++ more) = join (rootNames path) ++ '/' :: join more := Split.intercalate_append none some_
        rw [hasTrailingDirectorySeparator_join _ (fun c listed => proper c (mem_append_left _ listed)) none,
          if_neg Bool.false_ne_true, cut]
        simp
    have whole : rootOf path ++ join (rootNames path ++ more ++ rest) = path := by
      rw [append_assoc, ← names]
      exact plain.written
    have contains := @pathContainsPath_join (rootOf path) (rootNames path ++ more) rest (fun _ => closed) plain.rooted fun c listed =>
      proper c (mem_append_right _ (mem_append_right _ listed))
    rwa [whole, ← text] at contains

theorem begins_sensitive {p l : List Text} (begins : Begins ((⟨true, []⟩ : ComparePathsOptions).key toLowercase) p l) : p <+: l := by
  have same : (⟨true, []⟩ : ComparePathsOptions).key toLowercase = id := rfl
  unfold Begins at begins
  rwa [same, map_id, map_id] at begins

theorem getCommonParentsForWatching_contains (plain : ∀ path ∈ paths, IsPlain path) : ∃ parents ignored,
    getCommonParentsForWatching toLowercase ⟨true, []⟩ paths 2 = .ok (parents, ignored) ∧
      ∀ path ∈ paths, path ∈ ignored ∨ ∃ parent ∈ parents, pathContainsPath parent path = true := by
  unfold getCommonParentsForWatching
  rw [if_neg (by decide)]
  rcases paths with none | ⟨path, none | ⟨second, rest⟩⟩
  · exact ⟨[], ∅, rfl, by simp⟩
  · dsimp only
    split
    · exact ⟨[], {path}, rfl, by simp⟩
    · refine ⟨[path], ∅, rfl, fun p listed => .inr ⟨path, mem_singleton_self path, ?_⟩⟩
      obtain rfl := mem_singleton.mp listed
      exact pathContainsPath_self fun none => (plain p listed).rooted (by rw [none]; rfl)
  dsimp only
  generalize path :: second :: rest = paths at plain
  have groups : (paths.map (watchComponents ⟨true, []⟩)).filter (fun components => decide ¬components.length < 2) =
      (paths.filter fun path => 2 ≤ (watchComponents ⟨true, []⟩ path).length).map (watchComponents ⟨true, []⟩) := by
    rw [filter_map]
    exact congrArg _ (filter_congr fun path _ => decide_eq_decide.mpr Nat.not_lt)
  rw [groups]
  have long (path : Text) : path ∈ paths.filter (fun path => decide (2 ≤ (watchComponents ⟨true, []⟩ path).length)) ↔
      path ∈ paths ∧ 2 ≤ (watchComponents ⟨true, []⟩ path).length := by
    rw [mem_filter, decide_eq_true_eq]
  obtain ⟨found, returned, covers⟩ := @getCommonParentsWorker_covers toLowercase ⟨true, []⟩ (2 + 1)
    ((paths.filter fun path => 2 ≤ (watchComponents ⟨true, []⟩ path).length).map (watchComponents ⟨true, []⟩)) 2
    (Nat.lt_succ_self _)
  have covers := covers (fun l member => by
      obtain ⟨path, known, rfl⟩ := mem_map.mp member
      exact ((long path).mp known).2)
    (groupsAlike_watched fun path known => plain path ((long path).mp known).1)
  rw [getCommonParentsForWatchingWorker, returned]
  refine ⟨_, _, rfl, fun path listed => ?_⟩
  by_cases enough : 2 ≤ (watchComponents ⟨true, []⟩ path).length
  · obtain ⟨components, member, begins⟩ := covers.covered _ (mem_map_of_mem ((long path).mpr ⟨listed, enough⟩))
    exact .inr ⟨_, mem_map_of_mem member, (plain path listed).contains (covers.long components member) (begins_sensitive begins)⟩
  · refine .inl ?_
    rw [mem_toFinset, mem_filter, decide_eq_true_eq]
    exact ⟨listed, Nat.lt_of_not_le enough⟩
end

section
variable {regions : Regions} {data : List Text} {lookups lookups' : Lookups} {path directory : Text}

/-- The directory that a path is classified under: the first one that contains it. -/
def Regions.of (regions : Regions) (path : Text) : Option Text :=
  if pathContainsPath regions.workspace path then some regions.workspace
  else if pathContainsPath regions.current path then some regions.current
  else if pathContainsPath regions.lib path then some regions.lib
  else none

def Lookups.Region (lookups : Lookups) (regions : Regions) (region : Text) : Prop :=
  lookups.includeWorkspace = true ∧ region = regions.workspace ∨ lookups.includeRoot = true ∧ region = regions.current ∨
    lookups.includeLib = true ∧ region = regions.lib

def Lookups.Records (lookups : Lookups) (regions : Regions) (path : Text) : Prop :=
  match regions.of path with
  | some region => lookups.Region regions region
  | none =>
    match nodeModulesDirectory path with
    | some nodeModules => nodeModules ∈ lookups.nodeModulesDirectories
    | none => getDirectoryPath path ∈ lookups.externalDirectories

/-- A path whose directory was not seen before is recorded, and nothing is forgotten. -/
structure Lookups.Adds (regions : Regions) (path : Text) (lookups lookups' : Lookups) : Prop where
  seen : lookups'.seenDirs = getDirectoryPath path :: lookups.seenDirs
  region : ∀ region, lookups.Region regions region → lookups'.Region regions region
  nodeModules : lookups.nodeModulesDirectories ⊆ lookups'.nodeModulesDirectories
  external : lookups.externalDirectories ⊆ lookups'.externalDirectories
  records : lookups'.Records regions path
  fresh : ∀ d ∈ lookups'.externalDirectories, d ∈ lookups.externalDirectories ∨
    d = getDirectoryPath path ∧ regions.of path = none ∧ nodeModulesDirectory path = none

theorem mem_insertNew {d : Text} {directories : List Text} : d ∈ insertNew directory directories ↔ d = directory ∨ d ∈ directories := by
  unfold insertNew
  split
  · rename_i listed
    exact ⟨.inr, fun either => either.elim (fun same => same ▸ listed) id⟩
  · exact mem_cons

theorem addPath_adds (ordinary : Lsconv.isDynamicFileName path = false) (unseen : getDirectoryPath path ∉ lookups.seenDirs) :
    lookups.Adds regions path (addPath regions lookups path) := by
  unfold addPath
  rw [ordinary, if_neg Bool.false_ne_true]
  rw [if_neg unseen]
  by_cases workspace : pathContainsPath regions.workspace path = true
  · rw [if_pos workspace]
    have region : regions.of path = some regions.workspace := if_pos workspace
    refine ⟨rfl, fun _ known => known.imp_left fun both => ⟨rfl, both.2⟩, List.Subset.refl _, List.Subset.refl _, ?_,
      fun _ listed => .inl listed⟩
    unfold Lookups.Records
    rw [region]
    exact .inl ⟨rfl, rfl⟩
  by_cases current : pathContainsPath regions.current path = true
  · rw [if_neg workspace, if_pos current]
    have region : regions.of path = some regions.current := (if_neg workspace).trans (if_pos current)
    refine ⟨rfl, fun _ known => known.imp_right (Or.imp_left fun both => ⟨rfl, both.2⟩), List.Subset.refl _, List.Subset.refl _,
      ?_, fun _ listed => .inl listed⟩
    unfold Lookups.Records
    rw [region]
    exact .inr (.inl ⟨rfl, rfl⟩)
  by_cases lib : pathContainsPath regions.lib path = true
  · rw [if_neg workspace, if_neg current, if_pos lib]
    have region : regions.of path = some regions.lib := (if_neg workspace).trans ((if_neg current).trans (if_pos lib))
    refine ⟨rfl, fun _ known => known.imp_right (Or.imp_right fun both => ⟨rfl, both.2⟩), List.Subset.refl _,
      List.Subset.refl _, ?_, fun _ listed => .inl listed⟩
    unfold Lookups.Records
    rw [region]
    exact .inr (.inr ⟨rfl, rfl⟩)
  rw [if_neg workspace, if_neg current, if_neg lib]
  have outside : regions.of path = none := (if_neg workspace).trans ((if_neg current).trans (if_neg lib))
  cases found : nodeModulesDirectory path with
  | some nodeModules =>
    refine ⟨rfl, fun _ known => known, fun _ listed => mem_insertNew.mpr (.inr listed), List.Subset.refl _, ?_,
      fun _ listed => .inl listed⟩
    unfold Lookups.Records
    rw [outside, found]
    exact mem_insertNew.mpr (.inl rfl)
  | none =>
    refine ⟨rfl, fun _ known => known, List.Subset.refl _, fun _ listed => mem_insertNew.mpr (.inr listed), ?_,
      fun _ listed => (mem_insertNew.mp listed).symm.imp_right fun same => ⟨same, outside, found⟩⟩
    unfold Lookups.Records
    rw [outside, found]
    exact mem_insertNew.mpr (.inl rfl)

/-- Of each directory that was seen, the first path left what it stands for. -/
structure Lookups.Tracks (regions : Regions) (data : List Text) (lookups : Lookups) : Prop where
  records : ∀ d ∈ lookups.seenDirs, ∃ q ∈ data, Lsconv.isDynamicFileName q = false ∧ getDirectoryPath q = d ∧ lookups.Records regions q
  external : ∀ d ∈ lookups.externalDirectories, ∃ q ∈ data, Lsconv.isDynamicFileName q = false ∧ getDirectoryPath q = d ∧
    regions.of q = none ∧ nodeModulesDirectory q = none

theorem Lookups.Records.add {q : Text} (records : lookups.Records regions q) (adds : lookups.Adds regions path lookups') :
    lookups'.Records regions q := by
  unfold Lookups.Records at records ⊢
  cases region : regions.of q with
  | some region' =>
    rw [region] at records
    exact adds.region region' records
  | none =>
    rw [region] at records
    cases found : nodeModulesDirectory q with
    | some nodeModules =>
      rw [found] at records
      exact adds.nodeModules records
    | none =>
      rw [found] at records
      exact adds.external records

theorem Lookups.Tracks.add (tracks : lookups.Tracks regions data) (listed : path ∈ data) :
    (addPath regions lookups path).Tracks regions data ∧ lookups.seenDirs ⊆ (addPath regions lookups path).seenDirs ∧
      (Lsconv.isDynamicFileName path = false → getDirectoryPath path ∈ (addPath regions lookups path).seenDirs) := by
  cases ordinary : Lsconv.isDynamicFileName path with
  | true =>
    have same : addPath regions lookups path = lookups := if_pos ordinary
    rw [same]
    exact ⟨tracks, List.Subset.refl _, fun other => by cases other⟩
  | false =>
    by_cases seen : getDirectoryPath path ∈ lookups.seenDirs
    · have same : addPath regions lookups path = lookups := by
        unfold addPath
        rw [ordinary, if_neg Bool.false_ne_true]
        exact if_pos seen
      rw [same]
      exact ⟨tracks, List.Subset.refl _, fun _ => seen⟩
    have adds := @addPath_adds regions lookups path ordinary seen
    rw [adds.seen]
    refine ⟨⟨fun d known => ?_, fun d known => ?_⟩, subset_cons_self _ _, fun _ => mem_cons_self⟩
    · rw [adds.seen] at known
      rcases mem_cons.mp known with rfl | before
      · exact ⟨path, listed, ordinary, rfl, adds.records⟩
      · obtain ⟨q, member, plain, same, records⟩ := tracks.records d before
        exact ⟨q, member, plain, same, records.add adds⟩
    · rcases adds.fresh d known with before | ⟨rfl, outside, package⟩
      · exact tracks.external d before
      · exact ⟨path, listed, ordinary, rfl, outside, package⟩

theorem Lookups.Tracks.addAll {rest : List Text} (tracks : lookups.Tracks regions data) (known : ∀ path ∈ rest, path ∈ data) :
    (rest.foldl (addPath regions) lookups).Tracks regions data ∧ lookups.seenDirs ⊆ (rest.foldl (addPath regions) lookups).seenDirs ∧
      ∀ path ∈ rest, Lsconv.isDynamicFileName path = false → getDirectoryPath path ∈ (rest.foldl (addPath regions) lookups).seenDirs := by
  induction rest generalizing lookups with
  | nil => exact ⟨tracks, List.Subset.refl _, by simp⟩
  | cons path rest ih =>
    obtain ⟨here, later⟩ := forall_mem_cons.mp known
    obtain ⟨tracks', kept, seen⟩ := tracks.add here
    obtain ⟨all, kept', seen'⟩ := ih tracks' later
    exact ⟨all, List.Subset.trans kept kept', forall_mem_cons.mpr ⟨fun ordinary => kept' (seen ordinary), seen'⟩⟩

/-- The directory of packages is named in the directory of the path, and so contains every path of that directory. -/
theorem nodeModulesDirectory_contains {p q nodeModules : Text} (found : nodeModulesDirectory q = some nodeModules)
    (absolute : IsAbsolutePath q) (absolute' : IsAbsolutePath p) (same : getDirectoryPath q = getDirectoryPath p) :
    pathContainsPath nodeModules p = true := by
  obtain ⟨⟨before, rest⟩, cut, rfl⟩ := Option.map_eq_some_iff.mp found
  obtain ⟨shape, begins⟩ := cutAt_some cut
  have ends : "/node_modules/".toList = "/node_modules".toList ++ ['/'] := by decide
  have whole : (before ++ "/node_modules".toList) ++ ['/'] <+: q := by
    rw [shape, append_assoc, ← ends]
    exact (prefix_append_right_inj before).mpr begins
  have begins := absolute.begins_directory whole
  rw [same] at begins
  exact pathContainsPath_trans (pathContainsPath_of_begins (append_ne_nil_of_right_ne_nil _ (by decide)) begins)
    absolute'.directory.2
end

variable {toLowercase : Char → Text} {regions : Regions} {data : List Text} {lookups : Lookups} {directory : Text}
  {result : PatternsAndIgnored}

def PatternsAndIgnored.Watches (result : PatternsAndIgnored) (directory : Text) : Prop :=
  getRecursiveGlobPattern directory ∈ result.patternsInsideWorkspace ∨ directory ∈ result.directoriesOutsideWorkspace

/-- What the directories that were collected are worth in the end. -/
structure PatternsAndIgnored.Serves (result : PatternsAndIgnored) (regions : Regions) (lookups : Lookups) : Prop where
  region : ∀ region, lookups.Region regions region → result.Watches region
  nodeModules : ∀ d ∈ lookups.nodeModulesDirectories, result.Watches d
  external : ∀ d ∈ lookups.externalDirectories, d ∈ result.ignored ∨ ∃ parent, result.Watches parent ∧ pathContainsPath parent d = true

theorem patternsOf_serves (plain : ∀ d ∈ lookups.externalDirectories, IsPlain d) :
    ∃ result, patternsOf toLowercase regions lookups = .ok result ∧ result.Serves regions lookups := by
  unfold patternsOf
  generalize shape : (if lookups.includeWorkspace then [getRecursiveGlobPattern regions.workspace] else []) ++
    (if lookups.includeRoot then [getRecursiveGlobPattern regions.current] else []) ++
    (if lookups.includeLib then [getRecursiveGlobPattern regions.lib] else []) ++
    sortedTexts (lookups.nodeModulesDirectories.map getRecursiveGlobPattern) = globs
  have region (region : Text) (known : lookups.Region regions region) : getRecursiveGlobPattern region ∈ globs := by
    rw [← shape]
    rcases known with ⟨included, rfl⟩ | ⟨included, rfl⟩ | ⟨included, rfl⟩
    all_goals simp [included]
  have nodeModules (d : Text) (known : d ∈ lookups.nodeModulesDirectories) : getRecursiveGlobPattern d ∈ globs := by
    rw [← shape]
    exact mem_append_right _ (mem_sortBy.mpr (mem_map_of_mem known))
  split
  · rename_i none
    refine ⟨_, rfl, fun d known => .inl (region d known), fun d known => .inl (nodeModules d known), fun d known => ?_⟩
    rw [none] at known
    cases known
  obtain ⟨parents, ignored, returned, covers⟩ := @getCommonParentsForWatching_contains toLowercase
    (sortedTexts lookups.externalDirectories) fun d known => plain d (mem_sortBy.mp known)
  have two : minWatchLocationDepth = 2 := rfl
  rw [two, returned]
  refine ⟨_, rfl, fun d known => .inl (region d known), fun d known => .inl (nodeModules d known), fun d known => ?_⟩
  refine (covers d (mem_sortBy.mpr known)).imp_right fun inside => ?_
  obtain ⟨parent, listed, contains⟩ := inside
  exact ⟨parent, .inr (mem_sortBy.mpr listed), contains⟩

theorem PatternsAndIgnored.Serves.watches {p q : Text} (serves : result.Serves regions lookups) (records : lookups.Records regions q)
    (uniform : ∀ region, regions.of q = some region → pathContainsPath region p = true) (absolute : IsAbsolutePath q)
    (absolute' : IsAbsolutePath p) (same : getDirectoryPath q = getDirectoryPath p) :
    (∃ d, result.Watches d ∧ pathContainsPath d p = true) ∨ getDirectoryPath p ∈ result.ignored := by
  unfold Lookups.Records at records
  cases region : regions.of q with
  | some region' =>
    rw [region] at records
    exact .inl ⟨region', serves.region region' records, uniform region' region⟩
  | none =>
    rw [region] at records
    cases found : nodeModulesDirectory q with
    | some nodeModules =>
      rw [found] at records
      exact .inl ⟨nodeModules, serves.nodeModules nodeModules records, nodeModulesDirectory_contains found absolute absolute' same⟩
    | none =>
      rw [found] at records
      rw [same] at records
      refine (serves.external _ records).symm.imp_left fun inside => ?_
      obtain ⟨parent, watches, contains⟩ := inside
      exact ⟨parent, watches, pathContainsPath_trans contains absolute'.directory.2⟩

/-- What is known of the paths that are mapped: they are absolute, no directory has paths in one of the regions and paths
outside of it, and those outside of all regions are in directories whose components are read as they are written. -/
structure Regions.Separates (regions : Regions) (data : List Text) : Prop where
  absolute : ∀ p ∈ data, Lsconv.isDynamicFileName p = false → IsAbsolutePath p
  uniform : ∀ q ∈ data, ∀ p ∈ data, Lsconv.isDynamicFileName q = false → Lsconv.isDynamicFileName p = false →
    getDirectoryPath q = getDirectoryPath p → ∀ region, regions.of q = some region → pathContainsPath region p = true
  plain : ∀ q ∈ data, Lsconv.isDynamicFileName q = false → regions.of q = none → nodeModulesDirectory q = none →
    ∀ name ∈ rootNames (getDirectoryPath q), ¬IsDrive name

theorem Lookups.Tracks.empty : Lookups.empty.Tracks regions data := ⟨by simp [Lookups.empty], by simp [Lookups.empty]⟩

variable {workspaceDirectory libDirectory currentDirectory : Text} {useCaseSensitiveFileNames : Bool}

/-- In whatever order the paths come, each one is below a directory that is watched, or its directory is reported. -/
theorem resolutionLookupGlobs_covers
    (separates : (regionsOf toLowercase workspaceDirectory libDirectory currentDirectory useCaseSensitiveFileNames).Separates data) :
    ∃ result, resolutionLookupGlobs toLowercase workspaceDirectory libDirectory currentDirectory useCaseSensitiveFileNames data =
      .ok result ∧ ∀ p ∈ data, Lsconv.isDynamicFileName p = false →
        (∃ d, result.Watches d ∧ pathContainsPath d p = true) ∨ getDirectoryPath p ∈ result.ignored := by
  unfold resolutionLookupGlobs
  dsimp only
  generalize regionsOf toLowercase workspaceDirectory libDirectory currentDirectory useCaseSensitiveFileNames = regions at separates
  obtain ⟨tracks, -, seen⟩ := @Lookups.Tracks.addAll regions data .empty data .empty fun _ listed => listed
  generalize data.foldl (addPath regions) .empty = lookups at tracks seen
  obtain ⟨result, returned, serves⟩ := @patternsOf_serves toLowercase regions lookups fun d known => by
    obtain ⟨q, listed, ordinary, rfl, outside, package⟩ := tracks.external d known
    exact ⟨(separates.absolute q listed ordinary).directory.1, separates.plain q listed ordinary outside package⟩
  refine ⟨result, returned, fun p listed ordinary => ?_⟩
  obtain ⟨q, member, ordinary', same, records⟩ := tracks.records _ (seen p listed ordinary)
  exact serves.watches records (separates.uniform q member p listed ordinary' ordinary same) (separates.absolute q member ordinary')
    (separates.absolute p listed ordinary) same

theorem resolutionLookupGlobs_covers_three :
    let regions := regionsOf (fun c => [c.toLower]) "/srv/app".toList "/lib/ts".toList "/srv/app".toList true
    let data := ["/srv/app/a.ts".toList, "/opt/x/a.ts".toList, "/n/node_modules/p/i.ts".toList]
    regions.Separates data ∧
      ∃ result, resolutionLookupGlobs (fun c => [c.toLower]) "/srv/app".toList "/lib/ts".toList "/srv/app".toList true data =
        .ok result ∧ ∀ p ∈ data, Lsconv.isDynamicFileName p = false →
          (∃ d, result.Watches d ∧ pathContainsPath d p = true) ∨ getDirectoryPath p ∈ result.ignored := by
  have regions : regionsOf (fun c => [c.toLower]) "/srv/app".toList "/lib/ts".toList "/srv/app".toList true =
      ⟨"/srv/app".toList, "/srv/app".toList, "/lib/ts".toList⟩ := by rfl
  have separates : (regionsOf (fun c => [c.toLower]) "/srv/app".toList "/lib/ts".toList "/srv/app".toList true).Separates
      ["/srv/app/a.ts".toList, "/opt/x/a.ts".toList, "/n/node_modules/p/i.ts".toList] := by
    rw [regions]
    generalize data : ["/srv/app/a.ts".toList, "/opt/x/a.ts".toList, "/n/node_modules/p/i.ts".toList] = paths
    refine ⟨?_, fun q listed p listed' _ _ same region found => ?_, fun q listed _ outside package name known => ?_⟩
    · rw [← data]
      decide
    · have inside : ∀ q ∈ paths, ∀ p ∈ paths, getDirectoryPath q = getDirectoryPath p →
          (Regions.of ⟨"/srv/app".toList, "/srv/app".toList, "/lib/ts".toList⟩ q).all (pathContainsPath · p) = true := by
        rw [← data]
        decide
      have inside := inside q listed p listed' same
      rwa [found] at inside
    · have bare : ∀ q ∈ paths, rootNames (getDirectoryPath q) = [] := by
        rw [← data]
        decide
      rw [bare q listed] at known
      cases known
  exact ⟨separates, resolutionLookupGlobs_covers separates⟩

/-- A file and a directory beside it, which is the workspace: of the two paths in one directory, only the first one counts. -/
theorem resolutionLookupGlobs_sibling : ¬∀ (data : List Text) (workspaceDirectory libDirectory currentDirectory : Text),
    (∀ p ∈ data, IsAbsolutePath p) →
      ∃ result, resolutionLookupGlobs (fun c => [c.toLower]) workspaceDirectory libDirectory currentDirectory true data =
        .ok result ∧ ∀ p ∈ data, Lsconv.isDynamicFileName p = false →
          (∃ d, result.Watches d ∧ pathContainsPath d p = true) ∨ getDirectoryPath p ∈ result.ignored := by
  intro always
  obtain ⟨result, returned, covered⟩ := always ["/srv/me/next.js".toList, "/srv/me/next.ts".toList] "/srv/me/next.js".toList
    "/lib/ts".toList "/srv/me/next.js".toList (by decide)
  have known : resolutionLookupGlobs (fun c => [c.toLower]) "/srv/me/next.js".toList "/lib/ts".toList "/srv/me/next.js".toList true
      ["/srv/me/next.js".toList, "/srv/me/next.ts".toList] = .ok ⟨[], ["/srv/me/next.js/**/*".toList], ∅⟩ := by rfl
  rw [known] at returned
  cases returned
  rcases covered "/srv/me/next.ts".toList (by simp) (by decide) with ⟨d, watches | outside, contains⟩ | ignored
  · have same := mem_singleton.mp watches
    have cut : "/srv/me/next.js/**/*".toList = "/srv/me/next.js".toList ++ "/**/*".toList := by decide
    rw [cut] at same
    have shape := append_cancel_right same
    have begins : removeTrailingDirectorySeparator d <+: d := by
      unfold removeTrailingDirectorySeparator
      split
      · exact dropLast_prefix d
      · exact prefix_rfl
    obtain ⟨-, same | ⟨rest, -, whole, -⟩⟩ := pathContainsPath_iff.mp contains
    · rw [shape, same] at begins
      revert begins
      decide
    · rw [shape] at begins
      have begins := begins.trans ⟨rest, whole.symm⟩
      revert begins
      decide
  · cases outside
  · cases ignored

end TypeScriptRs.Project.Watch
