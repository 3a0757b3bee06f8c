import TypeScriptRs.Lib.HashMap
import TypeScriptRs.Resolver.Resolve

/-! A Resolver over a sequence of calls, against a fresh one for each call. -/
namespace TypeScriptRs.Resolver
open Utf8 Machine Paths Queries

section
/-- A project reference: the name of its configuration, and its options. -/
structure Redirect where
  configName : Text
  compilerOptions : CompilerOptions

inductive Call where
  | moduleName (name containingFile : Text) (mode : ResolutionMode) (redirect : Option Redirect)
  | typeReferenceDirective (name containingFile : Text) (mode : ResolutionMode) (redirect : Option Redirect)
      (fromInferredTypesContainingFile : Bool)
  | packageDirectory (name containingFile : Text) (mode : ResolutionMode) (redirect : Option Redirect)

inductive Answer where
  | module_ (resolved : ResolvedModule)
  | typeReference (resolved : ResolvedTypeReferenceDirective)
  | directory (resolved : Option ResolvedModule)
  deriving DecidableEq

def Call.redirect : Call → Option Redirect
  | .moduleName _ _ _ redirect | .typeReferenceDirective _ _ _ redirect _ | .packageDirectory _ _ _ redirect => redirect

def getRedirectConfigName (redirect : Option Redirect) : Text := (redirect.map (·.configName)).getD []

def getCompilerOptionsWithRedirect (options : CompilerOptions) (redirect : Option Redirect) : CompilerOptions :=
  (redirect.map (·.compilerOptions)).getD options

variable (host : Host) (options : CompilerOptions)

def resolveModuleName (fuel : Nat) (name containingDirectory : Text) (mode : ResolutionMode) : Program Text (Option InfoCacheEntry) ResolvedModule := do
  let (resolved, _) ← resolveNodeLike host fuel (newResolutionState name containingDirectory false mode options)
  pure resolved

def resolveTypeReferenceDirective (fuel : Nat) (name containingDirectory : Text) (mode : ResolutionMode) (inferred : Bool) :
    Program Text (Option InfoCacheEntry) ResolvedTypeReferenceDirective := do
  let resolve : ResolutionM ResolvedTypeReferenceDirective := do
    let (typeRoots, fromConfig) ← getEffectiveTypeRoots host options
    resolveTypeReferenceDirectiveLike host (resolveNodeLike host fuel) typeRoots fromConfig inferred
  let (resolved, _) ← resolve (newResolutionState name containingDirectory true mode options)
  pure resolved

def resolvePackageDirectory (fuel : Nat) (name containingDirectory : Text) (mode : ResolutionMode) :
    Program Text (Option InfoCacheEntry) (Option ResolvedModule) := do
  let (resolved, state) ← loadModuleFromNearestNodeModulesDirectory host (resolveNodeLike host fuel)
    { newResolutionState name containingDirectory false mode options with resolvePackageDirectoryOnly := true }
  pure ((resolved.filter (·.isResolved)).map fun resolved => createResolvedModuleHandlingSymlink host state (some resolved))

def Call.program (fuel : Nat) (call : Call) : Program Text (Option InfoCacheEntry) Answer :=
  let options := getCompilerOptionsWithRedirect options call.redirect
  match call with
  | .moduleName name containingFile mode _ => do
    pure (.module_ (← resolveModuleName host options fuel name (getDirectoryPath containingFile) mode))
  | .typeReferenceDirective name containingFile mode _ inferred => do
    pure (.typeReference (← resolveTypeReferenceDirective host options fuel name (getDirectoryPath containingFile) mode inferred))
  | .packageDirectory name containingFile mode _ => do
    pure (.directory (← resolvePackageDirectory host options fuel name (getDirectoryPath containingFile) mode))
end

section
variable (host : Host)

def packageJsonPath (packageDirectory : Text) : Text := combinePaths packageDirectory ["package.json".toList]

/-- The key under which the package.json of a directory is remembered. -/
def infoKey (packageDirectory : Text) : Text := toPath host (packageJsonPath packageDirectory)

/-- What the file system says of the package.json of a directory. -/
def contentsOnDisk (packageDirectory : Text) : Option PackageJson :=
  if host.directoryExists packageDirectory ∧ host.fileExists (packageJsonPath packageDirectory) then
    some ((host.parse (host.readFile (packageJsonPath packageDirectory))).getD {})
  else none

def freshInfo (packageDirectory : Text) : Option InfoCacheEntry :=
  (contentsOnDisk host packageDirectory).map fun contents => { packageDirectory, directoryExists := true, contents := some contents }

abbrev InfoCache := HashMap Text InfoCacheEntry

def InfoCache.set (cache : InfoCache) (key : Text) (info : InfoCacheEntry) : InfoCacheEntry × InfoCache :=
  match cache.lookup key with
  | some existing => (existing, cache)
  | none => (info, cache.insert key info)

def cachedInfo (packageDirectory : Text) (cache : InfoCache) : Option InfoCacheEntry × InfoCache :=
  match cache.lookup (infoKey host packageDirectory) with
  | some existing =>
    match existing.contents with
    | some contents =>
      if existing.packageDirectory = packageDirectory then (some existing, cache)
      else (some { packageDirectory, directoryExists := true, contents := some contents }, cache)
    | none => (none, cache)
  | none =>
    match contentsOnDisk host packageDirectory with
    | some contents =>
      let (entry, cache) := InfoCache.set cache (infoKey host packageDirectory) { packageDirectory, directoryExists := true, contents := some contents }
      (some entry, cache)
    | none =>
      if host.directoryExists packageDirectory then
        (none, (InfoCache.set cache (infoKey host packageDirectory) { packageDirectory, directoryExists := true, contents := none }).2)
      else (none, cache)

/-- Directories whose package.json has one key have the same package.json, or none. -/
def OnePerKey : Prop := ∀ directory other, infoKey host directory = infoKey host other → contentsOnDisk host directory = contentsOnDisk host other

/-- An entry says what the file system says, for every spelling of the directory. -/
def RemembersDisk (cache : InfoCache) : Prop :=
  ∀ directory entry, cache.lookup (infoKey host directory) = some entry →
    entry.directoryExists = true ∧ entry.contents = contentsOnDisk host directory

variable {host}

theorem remembersDisk_set (onePerKey : OnePerKey host) {cache : InfoCache} (remembers : RemembersDisk host cache) (packageDirectory : Text)
    {entry : InfoCacheEntry} (exists_ : entry.directoryExists = true) (contents : entry.contents = contentsOnDisk host packageDirectory) :
    RemembersDisk host (InfoCache.set cache (infoKey host packageDirectory) entry).2 := by
  unfold InfoCache.set
  split
  · exact remembers
  intro directory found lookup
  rw [HashMap.lookup_insert_if] at lookup
  split at lookup
  · rename_i same
    cases lookup
    constructor
    · exact exists_
    · rw [contents]
      exact (onePerKey directory packageDirectory same).symm
  · exact remembers directory found lookup

theorem cachedInfo_transparent (onePerKey : OnePerKey host) :
    Program.Transparent (freshInfo host) (cachedInfo host) (RemembersDisk host) := by
  constructor
  · intro directory cache remembers
    unfold cachedInfo freshInfo
    split
    · rename_i existing found
      obtain ⟨directoryExists, contents⟩ := remembers directory existing found
      rw [← contents]
      split
      · rename_i found
        rw [found]
        split
        · obtain ⟨entryDirectory, entryExists, entryContents⟩ := existing
          rename_i same
          simp only at same found directoryExists
          rw [same, found, directoryExists]
          rfl
        · rfl
      · rename_i absent
        rw [absent]
        rfl
    · rename_i absent
      split
      · rename_i contents found
        rw [found]
        simp only [InfoCache.set, absent]
        rfl
      · rename_i none
        rw [none]
        split <;> rfl
  · intro directory cache remembers
    unfold cachedInfo
    split
    · split
      · split <;> exact remembers
      · exact remembers
    split
    · rename_i contents found
      exact remembersDisk_set onePerKey remembers directory rfl found.symm
    · rename_i none
      split
      · exact remembersDisk_set onePerKey remembers directory rfl none.symm
      · exact remembers
end

section
/-- The key of a remembered result of `resolve_module_name`. -/
structure ModuleResolutionCacheKey where
  containingDirectory : Text
  moduleName : Text
  resolutionMode : ResolutionMode
  redirectConfigName : Text
  deriving DecidableEq

structure TypeRefDirectiveResolutionCacheKey where
  containingDirectory : Text
  typeReferenceName : Text
  resolutionMode : ResolutionMode
  redirectConfigName : Text
  fromInferredTypesContainingFile : Bool
  deriving DecidableEq

structure Caches where
  packageJsonInfoCache : InfoCache := ∅
  moduleResolutionCache : HashMap ModuleResolutionCacheKey ResolvedModule := ∅
  typeRefDirectiveResolutionCache : HashMap TypeRefDirectiveResolutionCacheKey ResolvedTypeReferenceDirective := ∅

def moduleKey (name containingFile : Text) (mode : ResolutionMode) (redirect : Option Redirect) : ModuleResolutionCacheKey :=
  ⟨getDirectoryPath containingFile, name, mode, getRedirectConfigName redirect⟩

def typeReferenceKey (name containingFile : Text) (mode : ResolutionMode) (redirect : Option Redirect) (inferred : Bool) :
    TypeRefDirectiveResolutionCacheKey :=
  ⟨getDirectoryPath containingFile, name, mode, getRedirectConfigName redirect, inferred⟩

def Caches.get (caches : Caches) : Call → Option Answer
  | .moduleName name containingFile mode redirect =>
    (caches.moduleResolutionCache.lookup (moduleKey name containingFile mode redirect)).map .module_
  | .typeReferenceDirective name containingFile mode redirect inferred =>
    (caches.typeRefDirectiveResolutionCache.lookup (typeReferenceKey name containingFile mode redirect inferred)).map .typeReference
  | .packageDirectory _ _ _ _ => none

def Caches.set (caches : Caches) (call : Call) (answer : Answer) : Caches :=
  match call, answer with
  | .moduleName name containingFile mode redirect, .module_ resolved =>
    { caches with moduleResolutionCache := caches.moduleResolutionCache.insert (moduleKey name containingFile mode redirect) resolved }
  | .typeReferenceDirective name containingFile mode redirect inferred, .typeReference resolved =>
    { caches with
      typeRefDirectiveResolutionCache :=
        caches.typeRefDirectiveResolutionCache.insert (typeReferenceKey name containingFile mode redirect inferred) resolved }
  | _, _ => caches

variable (host : Host) (options : CompilerOptions) (fuel : Nat)

def call (caches : Caches) (call : Call) : Ending Answer × Caches :=
  match caches.get call with
  | some answer => (.done answer, caches)
  | none =>
    let (ending, packageJsonInfoCache) := (call.program host options fuel).runWith (cachedInfo host) caches.packageJsonInfoCache
    let caches := { caches with packageJsonInfoCache }
    match ending with
    | .done answer => (ending, caches.set call answer)
    | _ => (ending, caches)

def callFresh (c : Call) : Ending Answer := (call host options fuel {} c).1

def answers (caches : Caches) : List Call → List (Ending Answer)
  | [] => []
  | c :: calls => (call host options fuel caches c).1 :: answers (call host options fuel caches c).2 calls
end

variable {host : Host} {options : CompilerOptions} {fuel : Nat} {named : Text → CompilerOptions}

/-- The name of a configuration stands for one set of options. -/
def Call.Named (named : Text → CompilerOptions) (call : Call) : Prop :=
  ∀ redirect ∈ call.redirect, redirect.compilerOptions = named redirect.configName

/-- What the caches hold is what the file system says, and what fresh calls return. -/
structure Coherent (host : Host) (options : CompilerOptions) (fuel : Nat) (named : Text → CompilerOptions) (caches : Caches) : Prop where
  infos : RemembersDisk host caches.packageJsonInfoCache
  results : ∀ call answer, call.Named named → caches.get call = some answer →
    (call.program host options fuel).run (freshInfo host) = .done answer

theorem coherent_empty : Coherent host options fuel named {} := by
  constructor
  · intro directory entry found
    simp [Finmap.lookup_empty] at found
  · intro call answer _ found
    cases call <;> simp [Caches.get, Finmap.lookup_empty] at found

theorem options_of_named (own : named [] = options) {call : Call} (isNamed : call.Named named) :
    getCompilerOptionsWithRedirect options call.redirect = named (getRedirectConfigName call.redirect) := by
  cases shape : call.redirect with
  | none => exact own.symm
  | some redirect => exact isNamed redirect shape

theorem get_set (own : named [] = options) {caches : Caches} {call other : Call} {answer found : Answer} (isNamed : call.Named named)
    (otherNamed : other.Named named) (stored : (caches.set call answer).get other = some found) :
    caches.get other = some found ∨ found = answer ∧ other.program host options fuel = call.program host options fuel := by
  have callOptions := options_of_named own isNamed
  have otherOptions := options_of_named own otherNamed
  unfold Caches.set at stored
  split at stored
  · cases other with
    | moduleName otherName otherFile otherMode otherRedirect =>
      simp only [Caches.get, HashMap.lookup_insert_if] at stored
      split at stored
      · rename_i same
        right
        cases stored
        simp only [moduleKey, ModuleResolutionCacheKey.mk.injEq] at same
        obtain ⟨directory, rfl, rfl, config⟩ := same
        simp only [Call.redirect] at callOptions otherOptions
        simp only [Call.program, Call.redirect, directory, callOptions, otherOptions, config, and_self]
      · exact Or.inl stored
    | typeReferenceDirective otherName otherFile otherMode otherRedirect inferred => exact Or.inl stored
    | packageDirectory otherName otherFile otherMode otherRedirect => exact Or.inl stored
  · cases other with
    | typeReferenceDirective otherName otherFile otherMode otherRedirect otherInferred =>
      simp only [Caches.get, HashMap.lookup_insert_if] at stored
      split at stored
      · rename_i same
        right
        cases stored
        simp only [typeReferenceKey, TypeRefDirectiveResolutionCacheKey.mk.injEq] at same
        obtain ⟨directory, rfl, rfl, config, rfl⟩ := same
        simp only [Call.redirect] at callOptions otherOptions
        simp only [Call.program, Call.redirect, directory, callOptions, otherOptions, config, and_self]
      · exact Or.inl stored
    | moduleName otherName otherFile otherMode otherRedirect => exact Or.inl stored
    | packageDirectory otherName otherFile otherMode otherRedirect => exact Or.inl stored
  · exact Or.inl stored

theorem set_packageJsonInfoCache (caches : Caches) (call : Call) (answer : Answer) :
    (caches.set call answer).packageJsonInfoCache = caches.packageJsonInfoCache := by
  unfold Caches.set
  split <;> rfl

section
variable (onePerKey : OnePerKey host) (own : named [] = options)
include onePerKey own

theorem call_coherent {caches : Caches} {c : Call} (isNamed : c.Named named)
    (coherent : Coherent host options fuel named caches) :
    (call host options fuel caches c).1 = (c.program host options fuel).run (freshInfo host) ∧
      Coherent host options fuel named (call host options fuel caches c).2 := by
  unfold call
  split
  · rename_i answer found
    exact ⟨(coherent.results c answer isNamed found).symm, coherent⟩
  obtain ⟨same, remembers⟩ := Program.runWith_valid (cachedInfo_transparent onePerKey) (c.program host options fuel) coherent.infos
  dsimp only
  split
  · rename_i answer ended
    constructor
    · exact same
    constructor
    · rw [set_packageJsonInfoCache]
      exact remembers
    intro other found otherNamed stored
    rcases get_set own isNamed otherNamed stored with kept | ⟨rfl, runs⟩
    · apply coherent.results other found otherNamed
      cases other <;> exact kept
    · rw [runs, ← same]
      exact ended
  · constructor
    · exact same
    constructor
    · exact remembers
    · intro other found otherNamed kept
      apply coherent.results other found otherNamed
      cases other <;> exact kept

theorem callFresh_eq {c : Call} (isNamed : c.Named named) :
    callFresh host options fuel c = (c.program host options fuel).run (freshInfo host) :=
  (call_coherent onePerKey own isNamed coherent_empty).1

theorem answers_coherent (calls : List Call) : ∀ caches, Coherent host options fuel named caches → (∀ c ∈ calls, c.Named named) →
      answers host options fuel caches calls = calls.map (callFresh host options fuel) := by
  induction calls with
  | nil => intro caches _ _; rfl
  | cons c calls ih =>
    intro caches coherent areNamed
    have isNamed := areNamed c List.mem_cons_self
    obtain ⟨first, next⟩ := call_coherent onePerKey own isNamed coherent
    rw [answers, List.map_cons, first, callFresh_eq onePerKey own isNamed]
    congr 1
    exact ih _ next fun c member => areNamed c (List.mem_cons_of_mem _ member)
end

/-- Every call of a sequence on one Resolver is answered as on a fresh one, where spellings of a directory
that have one key have one package.json, and the name of a configuration stands for one set of options, the
empty name for those of the Resolver. -/
theorem caches_transparent (host : Host) (options : CompilerOptions) (named : Text → CompilerOptions) (calls : List Call)
    (onePerKey : OnePerKey host) (own : named [] = options) (areNamed : ∀ c ∈ calls, c.Named named) (fuel : Nat) :
    answers host options fuel {} calls = calls.map (callFresh host options fuel) :=
  answers_coherent onePerKey own calls {} coherent_empty areNamed

/-- A file system without links, in which `/x` is a package: a path is what it normalizes to. -/
def plainHost : Host where
  currentDirectory := "/".toList
  useCaseSensitiveFileNames := true
  fileExists path := key path ∈ ["/x/package.json".toList, "/x/main.d.ts".toList]
  directoryExists path := key (packageJsonPath path) ∈ ["/package.json".toList, "/x/package.json".toList]
  realpath := key
  readFile _ := "types: main.d.ts".toList
  parse text := if text = "types: main.d.ts".toList then some { types := ⟨"main.d.ts".toList, true⟩ } else none
  matchesVersion _ := false
  toLowercase c := [c]
  typingsLocation := []
where
  key (path : Text) : Text := if isRootedDiskPath path then normalizePath path else getNormalizedAbsolutePath path "/".toList

def typeRootOptions : CompilerOptions := { typeRootsConfigured := true, typeRoots := ["/t".toList] }

/-- A name that leaves the type root, and then the directory it seems to lead to. -/
def callsThroughTypeRoot : List Call :=
  [.typeReferenceDirective "../x".toList "/a.ts".toList .none none false, .moduleName "/x".toList "/a.ts".toList .none none]

theorem caches_transparent_plain :
    answers plainHost typeRootOptions 2 {} callsThroughTypeRoot = callsThroughTypeRoot.map (callFresh plainHost typeRootOptions 2) := by
  have onePerKey : OnePerKey plainHost := by
    intro directory other same
    have keys : plainHost.key (packageJsonPath directory) = plainHost.key (packageJsonPath other) := same
    simp only [contentsOnDisk, plainHost, keys]
  apply caches_transparent plainHost typeRootOptions (fun _ => typeRootOptions) callsThroughTypeRoot onePerKey rfl
  intro call member redirect referred
  simp only [callsThroughTypeRoot, List.mem_cons, List.not_mem_nil, or_false] at member
  rcases member with rfl | rfl <;> cases referred

/-- A file system in which `/t` is a link to `/real/t`. -/
def linkedHost : Host :=
  { plainHost with
    fileExists := fun path => followed path ∈ ["/real/x/package.json".toList, "/x/main.d.ts".toList, "/x/index.d.ts".toList]
    directoryExists := fun path => followed path ∈ ["/".toList, "/real".toList, "/real/t".toList, "/real/x".toList, "/x".toList]
    realpath := followed }
where
  followed (path : Text) : Text :=
    if "/t/..".toList.isPrefixOf path then "/real".toList ++ path.drop 5
    else if path = "/t".toList ∨ "/t/".toList.isPrefixOf path then "/real/t".toList ++ path.drop 2
    else path

/-- The package.json found behind the link is remembered for the directory that its path reads as. -/
theorem linkedDirectory_remembered :
    answers linkedHost typeRootOptions 2 {} callsThroughTypeRoot ≠ callsThroughTypeRoot.map (callFresh linkedHost typeRootOptions 2) := by
  decide +kernel

end TypeScriptRs.Resolver
