import TypeScriptRs.Resolver.Exports

/-! The resolution of a module name and of a type reference directive. -/
namespace TypeScriptRs.Resolver
open Utf8 Machine Paths Queries

def getNodeResolutionFeatures (options : CompilerOptions) : NodeResolutionFeatures :=
  let features := match options.moduleResolution with
    | .node16 => NodeResolutionFeatures.node16Default
    | .nodeNext | .bundler => NodeResolutionFeatures.all
  { features with
    exports := options.resolvePackageJsonExports.getD features.exports
    imports := options.resolvePackageJsonImports.getD features.imports }

def getConditions (options : CompilerOptions) (resolutionMode : ResolutionMode) : List Text :=
  let mode := if resolutionMode = .none ∧ options.moduleResolution = .bundler then .esNext else resolutionMode
  (if mode = .esNext then "import".toList else "require".toList) ::
    (if options.noDtsResolution then [] else ["types".toList]) ++
    (if options.moduleResolution = .bundler then [] else ["node".toList]) ++ options.customConditions

def newResolutionState (name containingDirectory : Text) (isTypeReferenceDirective : Bool) (resolutionMode : ResolutionMode)
    (compilerOptions : CompilerOptions) : ResolutionState where
  name
  containingDirectory
  compilerOptions
  extensions :=
    if isTypeReferenceDirective then .onlyDeclaration
    else
      { (if compilerOptions.noDtsResolution then .implementationFiles else ⟨true, true, true, false⟩ : Extensions) with
        json := compilerOptions.resolveJsonModule }
  features :=
    match compilerOptions.moduleResolution with
    | .node16 => .node16Default
    | .nodeNext => .all
    | .bundler => getNodeResolutionFeatures compilerOptions
  esmMode := compilerOptions.moduleResolution ≠ .bundler && resolutionMode = .esNext
  conditions := getConditions compilerOptions resolutionMode

section
variable (host : Host) (restart : ResolutionM ResolvedModule)

/-- The directories up to the one of the global typings cache. -/
def upToGlobalCache : List Text → List Text
  | [] => []
  | directory :: rest => directory :: if directory = host.typingsLocation then [] else upToGlobalCache rest

def getPackageScopeForPath (directory : Text) : ResolutionM (Option InfoCacheEntry) :=
  firstSome getPackageJsonInfo (upToGlobalCache host (ancestorDirectories directory))

/-- The directory from which the scope of a name is looked for. -/
def scopeDirectory (containingDirectory : Text) : Text := getNormalizedAbsolutePath containingDirectory host.currentDirectory

def importsOf (scope : InfoCacheEntry) : Option (List (Text × JsonValue)) :=
  scope.contents.bind fun contents =>
    match contents.imports with
    | .object entries => some entries
    | _ => none

def loadModuleFromImports : ResolutionM (Option Resolved) := do
  let state ← get
  if state.name = ['#'] ∨ ("#/".toList.isPrefixOf state.name ∧ !state.features.importsPatternRoot) then pure none
  else do
    let scope ← getPackageScopeForPath host (scopeDirectory host state.containingDirectory)
    match scope.bind fun scope => (importsOf scope).map fun table => (scope, table) with
    | some (scope, table) => loadModuleFromExportsOrImports host restart state.extensions state.name table scope true
    | none => pure none

def hasExports (packageInfo : InfoCacheEntry) : Bool := packageInfo.contents.any (!·.exports.isFalsy)

/-- The subpath by which a name refers to the package of the given name. -/
def selfSubpath (name packageName : Text) : Option Text :=
  let parts := getPathComponents name []
  let nameParts := getPathComponents packageName []
  if nameParts.isPrefixOf parts then
    some (if parts.drop nameParts.length = [] then ['.'] else combinePaths ['.'] (parts.drop nameParts.length))
  else none

def loadModuleFromSelfNameReference : ResolutionM (Option Resolved) := do
  let state ← get
  let scope ← getPackageScopeForPath host (scopeDirectory host state.containingDirectory)
  match (scope.filter hasExports).bind fun scope => scope.contents.bind fun contents =>
      if contents.name.valid then (selfSubpath state.name contents.name.value).map fun subpath => (scope, subpath) else none with
  | none => pure none
  | some (scope, subpath) =>
    if state.compilerOptions.allowJs && !contains "/node_modules/".toList state.containingDirectory then
      loadModuleFromExports host restart scope state.extensions subpath
    else
      orElse (loadModuleFromExports host restart scope state.extensions.priority subpath)
        (loadModuleFromExports host restart scope state.extensions.secondary subpath)

def getCandidateFromTypeRoot (name typeRoot : Text) : Text :=
  combinePaths typeRoot
    [if "/node_modules/@types".toList.isSuffixOf typeRoot || "/node_modules/@types/".toList.isSuffixOf typeRoot then
      mangleScopedPackageName name
    else name]

/-- A type root: a file of the name, where that is asked for, or a package directory. -/
def loadFromTypeRoot (considerFile : Bool) (typeRoot : Text) : ResolutionM (Option Resolved) := do
  let state ← get
  let candidate := getCandidateFromTypeRoot state.name typeRoot
  if !host.directoryExists typeRoot then pure none
  else
    match if considerFile then (loadModuleFromFile host state .onlyDeclaration candidate).filter (·.isResolved) else none with
    | some resolved => some <$> withPackageIdOfPath host resolved
    | none => loadNodeModuleFromDirectory host .onlyDeclaration candidate

def resolveFromTypeRoot : ResolutionM (Option Resolved) := do
  let state ← get
  if state.compilerOptions.typeRootsConfigured then
    firstSome (loadFromTypeRoot host true) state.compilerOptions.typeRoots
  else pure none

def tryLoadModuleUsingPathsIfEligible : ResolutionM (Option Resolved) := do
  let state ← get
  let options := state.compilerOptions
  if options.paths = [] ∨ pathIsRelative state.name then pure none
  else
    let baseDirectory := if options.pathsBasePath ≠ [] then options.pathsBasePath else host.currentDirectory
    tryLoadModuleUsingPathsWithLoader host state.extensions state.name baseDirectory options.paths (nodeLoadModuleByRelativeName host)

/-- The root directory with the longest normalized form that begins a path, and that form. -/
def longestRootDir (rootDirs : List Text) (candidate : Text) : Option (Text × Text) :=
  rootDirs.foldl (fun matched rootDir =>
    let normalized := normalizePath rootDir
    let normalizedRoot := if normalized.getLast? = some '/' then normalized else normalized ++ ['/']
    if normalizedRoot.isPrefixOf candidate && matched.all (fun matched => bytes matched.2 < bytes normalizedRoot) then
      some (rootDir, normalizedRoot)
    else matched) none

def tryLoadModuleUsingRootDirs : ResolutionM (Option Resolved) := do
  let state ← get
  let rootDirs := state.compilerOptions.rootDirs
  let candidate := normalizePath (combinePaths state.containingDirectory [state.name])
  match longestRootDir rootDirs candidate with
  | none => pure none
  | some (matchedRootDir, matchedPrefix) =>
    let suffix := candidate.drop matchedPrefix.length
    orElse (nodeLoadModuleByRelativeName host state.extensions candidate)
      (firstSome (fun rootDir =>
        nodeLoadModuleByRelativeName host state.extensions (combinePaths (normalizePath rootDir) [suffix]))
        (rootDirs.filter (· ≠ matchedRootDir)))

def tryLoadModuleUsingOptionalResolutionSettings : ResolutionM (Option Resolved) :=
  orElse (tryLoadModuleUsingPathsIfEligible host) do
    if isExternalModuleNameRelative (← get).name then tryLoadModuleUsingRootDirs host else pure none
end

section
variable (host : Host) (restart : ResolutionM ResolvedModule) (extensions : Extensions)

def withPackageIdFromInfo (packageInfo : Option InfoCacheEntry) (resolved : Resolved) : ResolutionM Resolved :=
  match packageInfo with
  | some packageInfo => do pure { resolved with packageId := ← getPackageIdFromInfo host resolved.path packageInfo }
  | none => pure resolved

/-- The result of a search, with the package id of the package that was searched. -/
def identified (packageInfo : Option InfoCacheEntry) (search : ResolutionM (Option Resolved)) : ResolutionM (Option Resolved) := do
  match ← search with
  | some resolved => some <$> withPackageIdFromInfo host packageInfo resolved
  | none => pure none

def fromFile (candidate : Text) : ResolutionM (Option Resolved) := do
  pure (loadModuleFromFile host (← get) extensions candidate)

/-- A package with its own package.json in a directory below the package that the name is of. -/
def loadNestedPackage (candidate : Text) (packageInfo : InfoCacheEntry) : ResolutionM (Option Resolved) :=
  orElse (fromFile host extensions candidate)
    (identified host (some packageInfo) (loadNodeModuleFromDirectoryWorker host extensions candidate (some packageInfo)))

def loadFromVersionPaths (packageDirectory rest : Text) (packageInfo : InfoCacheEntry) : ResolutionM (Option Resolved) :=
  match if rest = [] then none else getVersionPaths host packageInfo with
  | some versionPaths =>
    tryLoadModuleUsingPathsWithLoader host extensions rest packageDirectory versionPaths.getPaths fun extensions candidate =>
      identified host (some packageInfo)
        (orElse (fromFile host extensions candidate)
          (loadNodeModuleFromDirectoryWorker host extensions candidate (some packageInfo)))
  | none => pure none

def loadCandidate (candidate rest : Text) (packageInfo : Option InfoCacheEntry) : ResolutionM (Option Resolved) := do
  let esmMode := (← get).esmMode
  let hasNoExports := packageInfo.any fun info => info.contents.any fun contents =>
    match contents.exports with
    | .notPresent | .null => true
    | _ => false
  identified host packageInfo
    (orElse (fromFile host extensions candidate)
      (orElse (loadNodeModuleFromDirectoryWorker host extensions candidate packageInfo)
        (if rest = [] ∧ esmMode ∧ hasNoExports then fromFile host extensions (combinePaths candidate ["index.js".toList])
        else pure none)))

def loadModuleFromSpecificNodeModulesDirectory (moduleName nodeModulesDirectory : Text) : ResolutionM (Option Resolved) := do
  let candidate := removeTrailingDirectorySeparator (normalizePath (combinePaths nodeModulesDirectory [moduleName]))
  let (packageName, rest) := parsePackageName moduleName
  let packageDirectory := if packageName = [] then candidate else combinePaths nodeModulesDirectory [packageName]
  let state ← get
  if state.resolvePackageDirectoryOnly then
    pure (if host.directoryExists packageDirectory then some { path := packageDirectory } else none)
  else do
    let nested ← getPackageJsonInfo candidate
    let root ←
      if rest ≠ [] ∧ nested.isSome ∧ state.features.exports then getPackageJsonInfo packageDirectory else pure none
    let fromNested :=
      match if rest = [] ∨ root.any hasExports then none else nested with
      | some packageInfo => loadNestedPackage host extensions candidate packageInfo
      | none => pure none
    orElse fromNested do
      let packageInfo ←
        if rest = [] then pure nested
        else if root.isSome then pure root
        else getPackageJsonInfo packageDirectory
      match packageInfo with
      | none => loadCandidate host extensions candidate rest none
      | some packageInfo => do
        modify ({ · with resolvedPackageDirectory := true })
        if state.features.exports ∧ hasExports packageInfo then
          loadModuleFromExports host restart packageInfo extensions (if rest = [] then ['.'] else combinePaths ['.'] [rest])
        else
          orElse (loadFromVersionPaths host extensions packageDirectory rest packageInfo)
            (loadCandidate host extensions candidate rest (some packageInfo))

def loadModuleFromImmediateNodeModulesDirectory (directory : Text) : ResolutionM (Option Resolved) := do
  let name := (← get).name
  let nodeModulesFolder := combinePaths directory ["node_modules".toList]
  let nodeModulesAtTypes := combinePaths nodeModulesFolder ["@types".toList]
  if !host.directoryExists nodeModulesFolder then pure none
  else
    orElse (loadModuleFromSpecificNodeModulesDirectory host restart extensions name nodeModulesFolder)
      (if extensions.declaration ∧ host.directoryExists nodeModulesAtTypes then
        loadModuleFromSpecificNodeModulesDirectory host restart .onlyDeclaration (mangleScopedPackageName name) nodeModulesAtTypes
      else pure none)

def loadModuleFromNearestNodeModulesDirectoryWorker : ResolutionM (Option Resolved) := do
  let directories := ancestorDirectories (← get).containingDirectory
  firstSome (fun directory =>
    if getBaseFileName directory = "node_modules".toList then pure none
    else loadModuleFromImmediateNodeModulesDirectory host restart extensions directory) directories
end

variable (host : Host)

def loadModuleFromNearestNodeModulesDirectory (restart : ResolutionM ResolvedModule) : ResolutionM (Option Resolved) := do
  let extensions := (← get).extensions
  let search := fun extensions : Extensions =>
    if extensions.isEmpty then pure none else loadModuleFromNearestNodeModulesDirectoryWorker host restart extensions
  orElse (search extensions.priority) (search extensions.secondary)

/-- The paths of a file before and after its links are followed, if they differ. -/
def getOriginalAndResolvedFileName (fileName : Text) : Text × Text :=
  let resolvedFileName := normalizePath (host.realpath fileName)
  if pathsAreEqual host host.comparePathsOptions fileName resolvedFileName then ([], fileName) else (fileName, resolvedFileName)

def isExternalLibraryImport (path : Text) : Bool := contains "/node_modules/".toList path

def createResolvedModule (state : ResolutionState) (resolved : Option Resolved) (isExternalLibraryImport : Bool) : ResolvedModule :=
  match resolved with
  | some resolved =>
    { resolutionDiagnostics := state.diagnostics, resolvedFileName := resolved.path, originalPath := resolved.originalPath
      extension := resolved.extension, resolvedUsingTsExtension := resolved.resolvedUsingTsExtension
      packageId := resolved.packageId, isExternalLibraryImport }
  | none => { resolutionDiagnostics := state.diagnostics }

def createResolvedModuleHandlingSymlink (state : ResolutionState) (resolved : Option Resolved) : ResolvedModule :=
  let external := resolved.any (isExternalLibraryImport ·.path)
  let followed := resolved.map fun resolved =>
    if !state.compilerOptions.preserveSymlinks && external && resolved.originalPath = [] &&
        !isExternalModuleNameRelative state.name then
      let (originalPath, resolvedFileName) := getOriginalAndResolvedFileName host resolved.path
      if originalPath ≠ [] then { resolved with path := resolvedFileName, originalPath } else resolved
    else resolved
  createResolvedModule state followed external

def resolveNodeLikeWorker (restart : ResolutionM ResolvedModule) : ResolutionM (Option Resolved) :=
  orElse (tryLoadModuleUsingOptionalResolutionSettings host) do
    let state ← get
    if isExternalModuleNameRelative state.name then
      nodeLoadModuleByRelativeName host state.extensions (normalizePathForCjsResolution state.containingDirectory state.name)
    else
      orElse (if state.features.imports ∧ state.name.head? = some '#' then loadModuleFromImports host restart else pure none) <|
      orElse (do if (← get).features.selfName then loadModuleFromSelfNameReference host restart else pure none) <|
      if ':' ∈ state.name then pure (some unresolved)
      else
        orElse (loadModuleFromNearestNodeModulesDirectory host restart) <|
        orElse (do if (← get).extensions.declaration then resolveFromTypeRoot host else pure none) <|
        pure (some unresolved)
where
  normalizePathForCjsResolution (containingDirectory moduleName : Text) : Text :=
    let combined := combinePaths containingDirectory [moduleName]
    if (getPathComponents combined []).getLast? ∈ [some ['.'], some ['.', '.']] then
      ensureTrailingDirectorySeparator (normalizePath combined)
    else normalizePath combined

/-- Whether a result may only be due to features that the library does not know of. -/
def wantsAlternate (state : ResolutionState) (result : Option Resolved) : Bool :=
  state.resolvedPackageDirectory && !state.isConfigLookup && state.features.exports && !state.extensions.priority.isEmpty &&
    !isExternalModuleNameRelative state.name && result.any (fun resolved => resolved.isResolved &&
      isExternalLibraryImport resolved.path && !extensionIsOk ⟨true, false, true, false⟩ resolved.extension) &&
    "import".toList ∈ state.conditions

/-- `resolve_node_like`, given how it starts again for a bare target of an imports entry. -/
def resolveNodeLikeWith (restart : ResolutionM ResolvedModule) : ResolutionM ResolvedModule := do
  let result ← resolveNodeLikeWorker host restart
  let state ← get
  let resolvedModule := createResolvedModuleHandlingSymlink host state result
  if wantsAlternate state result then do
    set { state with features := { state.features with exports := false }, extensions := state.extensions.priority }
    let alternate ← resolveNodeLikeWorker host restart
    let after ← get
    let diagnosticResult := createResolvedModuleHandlingSymlink host after alternate
    set { after with diagnostics := after.diagnostics.take state.diagnostics.length }
    pure (if alternate.isSome && diagnosticResult.isResolved && diagnosticResult.isExternalLibraryImport then
      { resolvedModule with alternateResult := diagnosticResult.resolvedFileName }
    else resolvedModule)
  else pure resolvedModule

def resolveNodeLike : Nat → ResolutionM ResolvedModule
  | 0 => fun _ => .exhausted
  | fuel + 1 => resolveNodeLikeWith host (resolveNodeLike fuel)

def createResolvedTypeReferenceDirective (state : ResolutionState) (resolved : Option Resolved) (primary : Bool) :
    ResolutionM ResolvedTypeReferenceDirective :=
  match resolved.filter (·.isResolved) with
  | none => pure {}
  | some resolved =>
    if !extensionIsTs resolved.extension then abort "expected a TypeScript file extension"
    else
      let (originalPath, resolvedFileName) :=
        if state.compilerOptions.preserveSymlinks then ([], resolved.path) else getOriginalAndResolvedFileName host resolved.path
      pure {
        resolutionDiagnostics := state.diagnostics, primary, packageId := resolved.packageId, originalPath
        resolvedFileName := if originalPath ≠ [] then resolvedFileName else resolved.path
        isExternalLibraryImport := isExternalLibraryImport resolved.path }

/-- The resolution of a type reference directive; its name may start no other resolution. -/
def resolveTypeReferenceDirectiveLike (restart : ResolutionM ResolvedModule) (typeRoots : List Text)
    (fromConfig fromInferredTypesContainingFile : Bool) : ResolutionM ResolvedTypeReferenceDirective := do
  match ← firstSome (loadFromTypeRoot host fromConfig) typeRoots with
  | some resolved => createResolvedTypeReferenceDirective host (← get) (some resolved) true
  | none => do
    let state ← get
    let resolved ←
      if fromConfig ∧ fromInferredTypesContainingFile then pure none
      else if isExternalModuleNameRelative state.name then
        nodeLoadModuleByRelativeName host .onlyDeclaration
          (resolveNodeLikeWorker.normalizePathForCjsResolution state.containingDirectory state.name)
      else loadModuleFromNearestNodeModulesDirectory host restart
    createResolvedTypeReferenceDirective host (← get) resolved false

def getEffectiveTypeRoots (options : CompilerOptions) : ResolutionM (List Text × Bool) :=
  if options.typeRootsConfigured then pure (options.typeRoots, true)
  else if options.configFilePath = [] ∧ host.currentDirectory = [] then
    abort "cannot get effective type roots without a config file path or current directory"
  else
    let baseDir := if options.configFilePath ≠ [] then getDirectoryPath options.configFilePath else host.currentDirectory
    pure ((ancestorDirectories baseDir).map fun directory =>
      combinePaths (combinePaths directory ["node_modules".toList]) ["@types".toList], false)

end TypeScriptRs.Resolver
