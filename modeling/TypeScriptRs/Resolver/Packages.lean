import TypeScriptRs.Resolver.Files

/-! Package directories: their package.json, its main files, and the paths it maps names to. -/
namespace TypeScriptRs.Resolver
open Utf8 Machine Paths Queries

def ofOutcome {α : Type} : Outcome α → ResolutionM α
  | .ok value => pure value
  | .err message | .panic message => abort message

def ofSlice (text : Option Text) : ResolutionM Text :=
  match text with
  | some text => pure text
  | none => abort notBoundary

def getPackageJsonInfo (packageDirectory : Text) : ResolutionM (Option InfoCacheEntry) :=
  fun state => do pure (← Program.query packageDirectory, state)

def moveToNextDirectorySeparatorIfAvailable (path : Text) (prevSeparatorIndex : Nat) (isFolder : Bool) : Option Nat :=
  (dropBytes path (prevSeparatorIndex + 1)).map fun rest =>
    match find rest with
    | some index => prevSeparatorIndex + 1 + index
    | none => if isFolder then bytes path else prevSeparatorIndex

def parseNodeModuleFromPath (resolved : Text) (isFolder : Bool) : ResolutionM Text :=
  let path := replaceAll '\\' ['/'] resolved
  match cutAtLast "/node_modules/".toList path with
  | none => pure []
  | some (before, rest) =>
    let indexAfterNodeModules := bytes before + "/node_modules/".length
    ofSlice do
      let index ← moveToNextDirectorySeparatorIfAvailable path indexAfterNodeModules isFolder
      if "/node_modules/@".toList.isPrefixOf rest then
        takeBytes path (← moveToNextDirectorySeparatorIfAvailable path index isFolder)
      else takeBytes path index

def parsePackageName (moduleName : Text) : Text × Text :=
  let first := moduleName.takeWhile (· ≠ '/')
  match moduleName.drop first.length with
  | [] => (moduleName, [])
  | _ :: rest =>
    if moduleName.head? ≠ some '@' then (first, rest)
    else
      let second := rest.takeWhile (· ≠ '/')
      match rest.drop second.length with
      | [] => (moduleName, [])
      | _ :: rest => (first ++ '/' :: second, rest)

def mangleScopedPackageName (packageName : Text) : Text :=
  if packageName.head? = some '@' then
    let first := packageName.takeWhile (· ≠ '/')
    match packageName.drop first.length with
    | [] => packageName
    | _ :: rest => first.tail ++ "__".toList ++ rest
  else packageName

section
variable (host : Host)

/-- The versions of the peer dependencies that are found, by the order of their names. -/
def peerVersions (nodeModules : Text) : List Text → ResolutionM Text
  | [] => pure []
  | name :: names => do
    let info ← getPackageJsonInfo (nodeModules ++ name)
    let rest ← peerVersions nodeModules names
    match info.bind (·.contents) with
    | some contents => pure ('+' :: name ++ '@' :: contents.version.value ++ rest)
    | none => pure rest

def readPackageJsonPeerDependencies (packageJsonInfo : InfoCacheEntry) : ResolutionM Text :=
  match packageJsonInfo.contents with
  | none => pure []
  | some contents =>
    if !contents.peerDependencies.valid || contents.peerDependencies.value.isEmpty then pure []
    else
      match cutAtLast "/node_modules".toList (normalizePath (host.realpath packageJsonInfo.packageDirectory)) with
      | none => pure []
      | some (before, _) =>
        peerVersions (before ++ "/node_modules/".toList)
          ((contents.peerDependencies.value.map (·.1)).mergeSort fun a b => decide (a ≤ b))

def getPackageIdFromInfo (resolvedFileName : Text) (packageInfo : InfoCacheEntry) : ResolutionM PackageId :=
  match packageInfo.contents with
  | none => pure {}
  | some contents =>
    if !contents.name.valid || !contents.version.valid then pure {}
    else do
      let subModuleName ←
        if bytes packageInfo.packageDirectory < bytes resolvedFileName then
          ofSlice (dropBytes resolvedFileName (bytes packageInfo.packageDirectory + 1))
        else pure []
      let peerDependencies ← readPackageJsonPeerDependencies host packageInfo
      pure { name := contents.name.value, version := contents.version.value, subModuleName, peerDependencies }

def getPackageId (resolvedFileName packageDirectory : Text) : ResolutionM PackageId := do
  match ← getPackageJsonInfo packageDirectory with
  | some packageInfo => getPackageIdFromInfo host resolvedFileName packageInfo
  | none => pure {}

/-- The package id of the package in which a file is found, if it is in one. -/
def withPackageIdOfPath (resolved : Resolved) : ResolutionM Resolved := do
  let packageDirectory ← parseNodeModuleFromPath resolved.path false
  if packageDirectory = [] then pure resolved
  else pure { resolved with packageId := ← getPackageId host resolved.path packageDirectory }
end

def beforeStar (pattern : Text) : Text := pattern.takeWhile (· ≠ '*')

def afterStar (pattern : Text) : Text := (pattern.dropWhile (· ≠ '*')).tail

structure ParsedPatterns where
  matchableStringSet : List Text
  patterns : List Text

def parsePatternKeys (paths : List Text) : ParsedPatterns :=
  ⟨paths.filter (·.count '*' = 0), paths.filter (·.count '*' = 1)⟩

def patternMatches (pattern candidate : Text) : Bool :=
  (beforeStar pattern).isPrefixOf candidate && (afterStar pattern).isSuffixOf candidate

/-- The first pattern of those with the longest text before the star. -/
def findBestPatternMatch (patterns : List Text) (candidate : Text) : Option Text :=
  patterns.foldl (fun best pattern =>
    if best.all (fun best => bytes (beforeStar best) < bytes (beforeStar pattern)) && patternMatches pattern candidate then some pattern
    else best) none

def matchPatternOrExact (patterns : ParsedPatterns) (candidate : Text) : Option Text :=
  if candidate ∈ patterns.matchableStringSet then some candidate else findBestPatternMatch patterns.patterns candidate

/-- What a star stands for in a name that matches, if the slice is in order. -/
def matchedText (pattern moduleName : Text) : Option Text :=
  slice moduleName (bytes (beforeStar pattern)) (bytes moduleName - bytes (afterStar pattern))

variable (host : Host)

def tryPathSubstitution (loader : Extensions → Text → ResolutionM (Option Resolved)) (extensions : Extensions)
    (containingDirectory matchedStar subst : Text) : ResolutionM (Option Resolved) := do
  let candidate := normalizePath (combinePaths containingDirectory [replaceFirst '*' matchedStar subst])
  let extensionFromSubst := tryGetExtensionFromPath subst
  let state ← get
  match if extensionFromSubst = [] then none else tryFile host state candidate with
  | some path => pure (some { path, extension := extensionFromSubst })
  | none => do
    set { state with candidateEndingIsFromConfig := state.candidateEndingIsFromConfig || extensionFromSubst ≠ [] }
    let resolved ← loader extensions candidate
    modify ({ · with candidateEndingIsFromConfig := state.candidateEndingIsFromConfig })
    pure resolved

def tryLoadModuleUsingPathsWithLoader (extensions : Extensions) (moduleName containingDirectory : Text)
    (paths : List (Text × List Text)) (loader : Extensions → Text → ResolutionM (Option Resolved)) :
    ResolutionM (Option Resolved) := do
  match matchPatternOrExact (parsePatternKeys (paths.map (·.1))) moduleName with
  | none => pure none
  | some matchedPattern => do
    let matchedStar ← if '*' ∈ matchedPattern then ofSlice (matchedText matchedPattern moduleName) else pure []
    firstSome (tryPathSubstitution host loader extensions containingDirectory matchedStar) ((lookup paths matchedPattern).getD [])

/-- `node_load_module_by_relative_name`, given what it does with a file that is found, and with a directory. -/
def nodeLoadModuleByRelativeNameWith {m : Type → Type} [Monad m] (state : ResolutionState) (found : Resolved → m Resolved)
    (fromDirectory : m (Option Resolved)) (extensions : Extensions) (candidate : Text) : m (Option Resolved) :=
  let directory := if !directoryExistsOrRoot host candidate || state.esmMode then pure none else fromDirectory
  if hasTrailingDirectorySeparator candidate then directory
  else if !directoryExistsOrRoot host (getDirectoryPath candidate) then pure none
  else
    match loadModuleFromFile host state extensions candidate with
    | some resolved => some <$> found resolved
    | none => directory

/-- The paths of the first entry of typesVersions whose range has the version of the compiler. -/
def getVersionPaths (packageInfo : InfoCacheEntry) : Option VersionPaths :=
  match (packageInfo.contents.map PackageJson.typesVersions).getD .notPresent with
  | .object entries =>
    match entries.find? fun entry => host.matchesVersion entry.1 with
    | some (version, .object pathsJson) => if version = [] then none else some ⟨version, pathsJson⟩
    | _ => none
  | _ => none

def getPackageJsonPathField (field : Expected Text) (directory : Text) : Option Text :=
  if !field.valid || field.value = [] then none else some (normalizePath (combinePaths directory [field.value]))

def getPackageFile (state : ResolutionState) (extensions : Extensions) (packageInfo : InfoCacheEntry) : Option Text :=
  packageInfo.contents.bind fun contents =>
    let pathField := fun field => getPackageJsonPathField field packageInfo.packageDirectory
    if state.isConfigLookup then pathField contents.tsconfig
    else
      (if extensions.declaration then (pathField contents.typings).or (pathField contents.types) else none).or
        (if extensions.typescript || extensions.javascript || extensions.declaration then pathField contents.main else none)

def loadPackageJsonCandidate (state : ResolutionState) (packageInfo : Option InfoCacheEntry) (packageJsonValue : Text)
    (extensions : Extensions) (candidate : Text) : Option Resolved :=
  (loadFileNameFromPackageJsonField host state extensions candidate packageJsonValue).or
    (let expandedExtensions := if extensions = .onlyDeclaration then { extensions with typescript := true } else extensions
    let isNotModule := (packageInfo.bind (·.contents)).any (·.type_.value ≠ "module".toList)
    let state := { state with candidateEndingIsFromConfig := true, esmMode := state.esmMode && !isNotModule }
    Id.run (nodeLoadModuleByRelativeNameWith host state pure (pure (loadIndexFile host state expandedExtensions candidate))
      expandedExtensions candidate))

def loadNodeModuleFromDirectoryWorker (extensions : Extensions) (candidate : Text) (packageInfo : Option InfoCacheEntry) :
    ResolutionM (Option Resolved) := do
  let state ← get
  let existing := packageInfo.filter (·.exists_)
  let packageFile := ((existing.filter fun info => pathsAreEqual host host.comparePathsOptions candidate info.packageDirectory).bind
    (getPackageFile state extensions)).getD []
  let indexPath := combinePaths candidate [if state.isConfigLookup then "tsconfig".toList else "index".toList]
  let fromPaths : ResolutionM (Option Resolved) :=
    match existing.bind (getVersionPaths host) with
    | some versionPaths =>
      if packageFile = [] || containsPath host ⟨false, []⟩ candidate packageFile then do
        let moduleName ← ofOutcome (getRelativePathFromDirectory host.toLowercase candidate
          (if packageFile = [] then indexPath else packageFile) ⟨false, []⟩)
        tryLoadModuleUsingPathsWithLoader host extensions moduleName candidate versionPaths.getPaths fun extensions candidate => do
          pure (loadPackageJsonCandidate host (← get) packageInfo packageFile extensions candidate)
      else pure none
    | none => pure none
  let fromPackageFile : ResolutionM (Option Resolved) :=
    pure (if packageFile = [] then none
      else loadPackageJsonCandidate host state packageInfo packageFile extensions packageFile)
  orElse fromPaths (orElse fromPackageFile (pure (loadIndexFile host state extensions candidate)))

def loadNodeModuleFromDirectory (extensions : Extensions) (candidate : Text) : ResolutionM (Option Resolved) := do
  loadNodeModuleFromDirectoryWorker host extensions candidate (← getPackageJsonInfo candidate)

def nodeLoadModuleByRelativeName (extensions : Extensions) (candidate : Text) : ResolutionM (Option Resolved) := do
  nodeLoadModuleByRelativeNameWith host (← get) (withPackageIdOfPath host) (loadNodeModuleFromDirectory host extensions candidate)
    extensions candidate

end TypeScriptRs.Resolver
