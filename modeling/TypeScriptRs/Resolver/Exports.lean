import TypeScriptRs.Lib.Comparison
import TypeScriptRs.Resolver.Packages

/-! The exports and imports of a package.json, and the walk over a target of theirs. -/
namespace TypeScriptRs.Resolver
open Utf8 Machine Paths Queries Comparison

/-- The length up to the star, which comes first in the order of the keys that expand. -/
def baseLength (key : Text) : Nat := if '*' ∈ key then bytes (beforeStar key) + 1 else bytes key

def comparePatternKeys (a b : Text) : Ordering :=
  (compare (baseLength b) (baseLength a)).then
    ((match decide ('*' ∈ a), decide ('*' ∈ b) with
      | false, true => .gt
      | true, false => .lt
      | _, _ => .eq : Ordering).then (compare (bytes b) (bytes a)))

def matchesPatternWithTrailer (target name : Text) : Bool :=
  target.getLast? ≠ some '*' && '*' ∈ target && (beforeStar target).isPrefixOf name && (afterStar target).isSuffixOf name

def expandingKeys (lookupTable : List (Text × JsonValue)) : List Text :=
  sortBy comparePatternKeys ((lookupTable.map (·.1)).filter fun key => key.count '*' = 1 || key.getLast? = some '/')

/-- How a name is an instance of a key: what the key leaves open, if that slice is in order, and whether the
key is a pattern. -/
def expandKey (features : NodeResolutionFeatures) (moduleName key : Text) : Option (Option Text × Bool) :=
  if features.exportsPatternTrailers && matchesPatternWithTrailer key moduleName then some (matchedText key moduleName, true)
  else if key.getLast? = some '*' && key.dropLast.isPrefixOf moduleName then some (some (moduleName.drop (key.length - 1)), true)
  else if key.isPrefixOf moduleName then some (some (moduleName.drop key.length), false)
  else none

def exactEntry (lookupTable : List (Text × JsonValue)) (moduleName : Text) : Option JsonValue :=
  if moduleName.getLast? ≠ some '/' && '*' ∉ moduleName then lookup lookupTable moduleName else none

/-- The target for a name, with the subpath it leaves open and whether its key is a pattern. -/
def selectTarget (features : NodeResolutionFeatures) (moduleName : Text) (lookupTable : List (Text × JsonValue)) :
    Option (JsonValue × Option Text × Bool) :=
  match exactEntry lookupTable moduleName with
  | some target => some (target, some [], false)
  | none => (expandingKeys lookupTable).findSome? fun key => do
    let target ← lookup lookupTable key
    let (subpath, isPattern) ← expandKey features moduleName key
    pure (target, subpath, isPattern)

section
variable (host : Host)

def getOutputDirectoriesForBaseDirectory (options : CompilerOptions) (commonSourceDirGuess : Text) : List Text :=
  let currentDir := if options.configFilePath ≠ [] then host.currentDirectory else commonSourceDirGuess
  let absolute := fun dir => getNormalizedAbsolutePath (combinePaths currentDir [dir]) host.currentDirectory
  (if options.declarationDir ≠ [] then [absolute options.declarationDir] else []) ++
    (if options.outDir ≠ [] ∧ options.outDir ≠ options.declarationDir then [absolute options.outDir] else [])

/-- The source of an output, by the extensions it can have been made from. -/
def inputFileOf (state : ResolutionState) (possibleInputBase : Text) : Option Resolved :=
  [extensionMjs, extensionCjs, extensionJs, extensionJson, extensionDmts, extensionDcts, extensionDts].findSome? fun extension =>
    if fileExtensionIs possibleInputBase extension then
      (getPossibleOriginalInputExtensionForExtension possibleInputBase).findSome? fun possibleExtension =>
        let possibleInput := changeExtension possibleInputBase possibleExtension
        if extensionIsOk state.extensions possibleExtension && host.fileExists possibleInput then
          loadFileNameFromPackageJsonField host state state.extensions possibleInput []
        else none
    else none

def mayBeOutput (state : ResolutionState) (finalPath packagePath : Text) : Bool :=
  !state.isConfigLookup && (state.compilerOptions.declarationDir ≠ [] || state.compilerOptions.outDir ≠ []) &&
    !contains "/node_modules/".toList finalPath &&
    (state.compilerOptions.configFilePath = [] ||
      containsPath host host.comparePathsOptions (getDirectoryPath packagePath) state.compilerOptions.configFilePath)

def tryLoadInputFileForPath (finalPath entry packagePath : Text) (isImports : Bool) : ResolutionM (Option Resolved) := do
  let state ← get
  let options := state.compilerOptions
  if !mayBeOutput host state finalPath packagePath then pure none
  else if options.rootDir = [] ∧ options.configFilePath = [] then do
    let diagnostic : Diagnostic := { isImports, entry := if entry = [] then ['.'] else entry, packagePath }
    set { state with diagnostics := state.diagnostics ++ [diagnostic] }
    pure (some unresolved)
  else
    let rootDir := if options.rootDir ≠ [] then options.rootDir else getDirectoryPath options.configFilePath
    firstSome (fun candidateDir =>
      if containsPath host host.comparePathsOptions candidateDir finalPath then do
        let pathFragment ← ofSlice (dropBytes finalPath (bytes candidateDir + 1))
        pure (inputFileOf host state (combinePaths rootDir [pathFragment]))
      else pure none) (getOutputDirectoriesForBaseDirectory host options rootDir)
end

section
variable (host : Host) (restart : ResolutionM ResolvedModule)

def conditionMatches (state : ResolutionState) (condition : Text) : Bool :=
  condition = "default".toList || condition ∈ state.conditions ||
    ("types".toList ∈ state.conditions && "types@".toList.isPrefixOf condition &&
      host.matchesVersion (condition.drop "types@".length))

/-- The parts of paths that a target, or what is put into it, may not have. -/
def isInvalidPart (part : Text) : Bool := part = ['.', '.'] || part = ['.'] || part = "node_modules".toList

def fillTarget (target subpath : Text) (isPattern : Bool) : Text :=
  if isPattern then replaceAll '*' subpath target else target ++ subpath

/-- Whether a target of an imports entry is a name to resolve. -/
def isBareTarget (target : Text) : Bool :=
  !"./".toList.isPrefixOf target && !"../".toList.isPrefixOf target && target.head? ≠ some '/' && !isRootedDiskPath target

variable (extensions : Extensions) (scope : InfoCacheEntry) (isImports : Bool) (subpath : Text) (isPattern : Bool)

def resolveBareTarget (combinedLookup : Text) : ResolutionM (Option Resolved) := do
  let state ← get
  set { state with name := combinedLookup, containingDirectory := ensureTrailingDirectorySeparator scope.packageDirectory }
  let result ← restart
  modify ({ · with name := state.name, containingDirectory := state.containingDirectory })
  pure (if result.isResolved then
    some { path := result.resolvedFileName, extension := result.extension, packageId := result.packageId
           originalPath := result.originalPath, resolvedUsingTsExtension := result.resolvedUsingTsExtension }
  else none)

/-- The file that a target with `./` names. -/
def loadTargetFile (target : Text) : ResolutionM (Option Resolved) := do
  let parts := getPathComponents target []
  if ((if pathIsRelative target then parts.drop 1 else parts).drop 1).any isInvalidPart ||
      (getPathComponents subpath []).any isInvalidPart then pure none
  else
    let resolvedTarget := combinePaths scope.packageDirectory [target]
    let finalPath := getNormalizedAbsolutePath (fillTarget resolvedTarget subpath isPattern) host.currentDirectory
    match ← tryLoadInputFileForPath host finalPath subpath (combinePaths scope.packageDirectory ["package.json".toList]) isImports with
    | some inputLink =>
      if inputLink.isResolved then
        pure (some { inputLink with packageId := ← getPackageIdFromInfo host inputLink.path scope })
      else pure (some inputLink)
    | none =>
      match loadFileNameFromPackageJsonField host (← get) extensions finalPath target with
      | some result => pure (some { result with packageId := ← getPackageIdFromInfo host result.path scope })
      | none => pure none

def loadStringTarget (target : Text) : ResolutionM (Option Resolved) :=
  if !isPattern ∧ subpath ≠ [] ∧ target.getLast? ≠ some '/' then pure none
  else if !"./".toList.isPrefixOf target then
    if isImports ∧ isBareTarget target then resolveBareTarget restart scope (fillTarget target subpath isPattern)
    else pure none
  else loadTargetFile host extensions scope isImports subpath isPattern target

mutual

def loadModuleFromTargetExportOrImport : JsonValue → ResolutionM (Option Resolved)
  | .string target => loadStringTarget host restart extensions scope isImports subpath isPattern target
  | .object entries => loadFromConditions entries
  | .array elements => loadFromElements elements
  | .null => pure (some unresolved)
  | .notPresent | .number _ | .boolean _ => pure none

/-- The first of the conditions that match for which something is found. -/
def loadFromConditions : List (Text × JsonValue) → ResolutionM (Option Resolved)
  | [] => pure none
  | (condition, subTarget) :: rest => do
    if conditionMatches host (← get) condition then
      orElse (loadModuleFromTargetExportOrImport subTarget) (loadFromConditions rest)
    else loadFromConditions rest

def loadFromElements : List JsonValue → ResolutionM (Option Resolved)
  | [] => pure none
  | element :: rest => orElse (loadModuleFromTargetExportOrImport element) (loadFromElements rest)
end

end

variable (host : Host) (restart : ResolutionM ResolvedModule)

def loadModuleFromExportsOrImports (extensions : Extensions) (moduleName : Text) (lookupTable : List (Text × JsonValue))
    (scope : InfoCacheEntry) (isImports : Bool) : ResolutionM (Option Resolved) := do
  match selectTarget (← get).features moduleName lookupTable with
  | some (target, subpath, isPattern) => do
    let subpath ← ofSlice subpath
    loadModuleFromTargetExportOrImport host restart extensions scope isImports subpath isPattern target
  | none => pure none

def mainExport (exports : JsonValue) : Option JsonValue :=
  match exports with
  | .string _ | .array _ => some exports
  | .object entries => if objectKind exports = .conditions then some exports else lookup entries ['.']
  | _ => none

def loadModuleFromExports (packageInfo : InfoCacheEntry) (extensions : Extensions) (subpath : Text) : ResolutionM (Option Resolved) :=
  match packageInfo.contents with
  | none => pure none
  | some contents =>
    if contents.exports.isFalsy then pure none
    else if subpath = ['.'] then
      match mainExport contents.exports with
      | some mainExport => loadModuleFromTargetExportOrImport host restart extensions packageInfo false [] false mainExport
      | none => pure none
    else
      match contents.exports with
      | .object entries =>
        if objectKind contents.exports = .subpaths then
          loadModuleFromExportsOrImports host restart extensions subpath entries packageInfo false
        else pure none
      | _ => pure none

end TypeScriptRs.Resolver
