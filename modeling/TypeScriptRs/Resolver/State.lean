import TypeScriptRs.Lib.Queries
import TypeScriptRs.Paths.Relative
import TypeScriptRs.Paths.SinglePass
import TypeScriptRs.Resolver.Extensions

/-! What module resolution works on: package.json contents, options, host, and a request's state. -/
namespace TypeScriptRs.Resolver
open Utf8 Machine Paths Queries

/-- A value of a package.json; entries of objects are in the order of the file. -/
inductive JsonValue where
  | notPresent
  | null
  | string (value : Text)
  | number (isZero : Bool)
  | boolean (value : Bool)
  | array (values : List JsonValue)
  | object (entries : List (Text × JsonValue))

namespace JsonValue

def isFalsy : JsonValue → Bool
  | notPresent | null => true
  | string value => value = []
  | number isZero => isZero
  | boolean value => !value
  | array _ | object _ => false

end JsonValue

def lookup {α : Type} (table : List (Text × α)) (key : Text) : Option α := (table.find? (·.1 = key)).map (·.2)

inductive ObjectKind where
  | unknown | subpaths | conditions | imports | invalid
  deriving DecidableEq

def objectKind : JsonValue → ObjectKind
  | .object entries =>
    let firsts := entries.filterMap (·.1.head?)
    let seenDot := firsts.any (· = '.')
    let seenHash := firsts.any (· = '#')
    let seenOther := firsts.any fun c => c ≠ '.' && c ≠ '#'
    if seenOther && (seenDot || seenHash) then .invalid
    else if seenDot then .subpaths
    else if seenHash then .imports
    else .conditions
  | _ => .unknown

structure Expected (α : Type) where
  value : α
  valid : Bool

structure PackageJson where
  name : Expected Text := ⟨[], false⟩
  version : Expected Text := ⟨[], false⟩
  type_ : Expected Text := ⟨[], false⟩
  tsconfig : Expected Text := ⟨[], false⟩
  main : Expected Text := ⟨[], false⟩
  types : Expected Text := ⟨[], false⟩
  typings : Expected Text := ⟨[], false⟩
  typesVersions : JsonValue := .notPresent
  imports : JsonValue := .notPresent
  exports : JsonValue := .notPresent
  peerDependencies : Expected (List (Text × Text)) := ⟨[], false⟩

structure InfoCacheEntry where
  packageDirectory : Text
  directoryExists : Bool
  contents : Option PackageJson

def InfoCacheEntry.exists_ (entry : InfoCacheEntry) : Bool := entry.contents.isSome

structure VersionPaths where
  version : Text
  pathsJson : List (Text × JsonValue)

def VersionPaths.getPaths (versionPaths : VersionPaths) : List (Text × List Text) :=
  versionPaths.pathsJson.filterMap fun (key, value) =>
    match value with
    | .array values => some (key, values.map fun path => match path with | .string path => path | _ => [])
    | _ => none

inductive ModuleResolutionKind where
  | node16 | nodeNext | bundler
  deriving DecidableEq

inductive ResolutionMode where
  | none | commonJS | esNext
  deriving DecidableEq

/-- The options that resolution reads. Those that depend on others are given as their accessors return them. -/
structure CompilerOptions where
  moduleResolution : ModuleResolutionKind := .bundler
  noDtsResolution : Bool := false
  resolveJsonModule : Bool := false
  allowJs : Bool := false
  preserveSymlinks : Bool := false
  resolvePackageJsonExports : Option Bool := .none
  resolvePackageJsonImports : Option Bool := .none
  customConditions : List Text := []
  moduleSuffixes : List Text := []
  paths : List (Text × List Text) := []
  pathsBasePath : Text := []
  rootDirs : List Text := []
  rootDir : Text := []
  outDir : Text := []
  declarationDir : Text := []
  configFilePath : Text := []
  typeRootsConfigured : Bool := false
  typeRoots : List Text := []

/-- The files, the parser of package.json files, the test of version ranges against the version of the
compiler, the Unicode table of lower-case characters, and the global cache of typings. -/
structure Host where
  currentDirectory : Text
  useCaseSensitiveFileNames : Bool
  fileExists : Text → Bool
  directoryExists : Text → Bool
  realpath : Text → Text
  readFile : Text → Text
  parse : Text → Option PackageJson
  matchesVersion : Text → Bool
  toLowercase : Char → Text
  typingsLocation : Text

structure NodeResolutionFeatures where
  imports : Bool
  selfName : Bool
  exports : Bool
  exportsPatternTrailers : Bool
  importsPatternRoot : Bool

def NodeResolutionFeatures.all : NodeResolutionFeatures := ⟨true, true, true, true, true⟩

def NodeResolutionFeatures.node16Default : NodeResolutionFeatures := { NodeResolutionFeatures.all with importsPatternRoot := false }

structure PackageId where
  name : Text := []
  subModuleName : Text := []
  version : Text := []
  peerDependencies : Text := []
  deriving DecidableEq

structure Resolved where
  path : Text
  extension : Text := []
  packageId : PackageId := {}
  originalPath : Text := []
  resolvedUsingTsExtension : Bool := false
  deriving DecidableEq

def Resolved.isResolved (resolved : Resolved) : Bool := resolved.path ≠ []

def unresolved : Resolved := { path := [] }

/-- The one diagnostic of resolution, with its arguments: the root of the project is ambiguous but needed
for an entry of an import or export map in a file. -/
structure Diagnostic where
  isImports : Bool
  entry : Text
  packagePath : Text
  deriving DecidableEq

structure ResolvedModule where
  resolutionDiagnostics : List Diagnostic
  resolvedFileName : Text := []
  originalPath : Text := []
  extension : Text := []
  resolvedUsingTsExtension : Bool := false
  packageId : PackageId := {}
  isExternalLibraryImport : Bool := false
  alternateResult : Text := []
  deriving DecidableEq

def ResolvedModule.isResolved (resolved : ResolvedModule) : Bool := resolved.resolvedFileName ≠ []

structure ResolvedTypeReferenceDirective where
  resolutionDiagnostics : List Diagnostic := []
  primary : Bool := false
  resolvedFileName : Text := []
  originalPath : Text := []
  packageId : PackageId := {}
  isExternalLibraryImport : Bool := false
  deriving DecidableEq

structure ResolutionState where
  name : Text
  containingDirectory : Text
  isConfigLookup : Bool := false
  features : NodeResolutionFeatures
  esmMode : Bool
  conditions : List Text
  extensions : Extensions
  compilerOptions : CompilerOptions
  resolvePackageDirectoryOnly : Bool := false
  candidateEndingIsFromConfig : Bool := false
  resolvedPackageDirectory : Bool := false
  diagnostics : List Diagnostic := []

/-- A step of one request: it reads and changes the state, and may ask for the package.json of a directory. -/
abbrev ResolutionM (α : Type) := StateT ResolutionState (Program Text (Option InfoCacheEntry)) α

def abort {α : Type} (message : String) : ResolutionM α := fun _ => .abort message

theorem get_bind {α : Type} {state : ResolutionState} (next : ResolutionState → ResolutionM α) :
    (get >>= next : ResolutionM α) state = next state state := rfl

def firstSome {α β : Type} (search : α → ResolutionM (Option β)) : List α → ResolutionM (Option β)
  | [] => pure none
  | a :: rest => do
    match ← search a with
    | some found => pure (some found)
    | none => firstSome search rest

/-- `a.or_else(b)`, for searches. -/
def orElse {β : Type} (first second : ResolutionM (Option β)) : ResolutionM (Option β) := do
  match ← first with
  | some found => pure (some found)
  | none => second

def ancestorDirectories (directory : Text) : List Text := climb (depth directory) directory
where
  climb : Nat → Text → List Text
    | 0, directory => [directory]
    | fuel + 1, directory =>
      directory :: if getDirectoryPath directory = directory then [] else climb fuel (getDirectoryPath directory)

def normalizePath (path : Text) : Text :=
  let path := normalizeSlashes path
  match simpleNormalizePath path with
  | some normalized => normalized
  | none =>
    let result := getNormalizedAbsolutePath path []
    if hasTrailingDirectorySeparator path && !hasTrailingDirectorySeparator result then result ++ ['/'] else result

def isRootedDiskPath (path : Text) : Bool := 0 < getEncodedRootLength path

def isDiskPathRoot (path : Text) : Bool :=
  0 < getEncodedRootLength path && getEncodedRootLength path = bytes path

def pathIsRelative (path : Text) : Bool :=
  path = ['.'] || path = ['.', '.'] || "./".toList.isPrefixOf path || ".\\".toList.isPrefixOf path ||
    "../".toList.isPrefixOf path || "..\\".toList.isPrefixOf path

def isExternalModuleNameRelative (moduleName : Text) : Bool := pathIsRelative moduleName || isRootedDiskPath moduleName

variable (host : Host)

def toPath (fileName : Text) : Text :=
  let path := if isRootedDiskPath fileName then normalizePath fileName else getNormalizedAbsolutePath fileName host.currentDirectory
  if host.useCaseSensitiveFileNames then path else toFileNameLowerCase host.toLowercase path

/-- `ComparePathsOptions` of the host. -/
def Host.comparePathsOptions : ComparePathsOptions := ⟨host.useCaseSensitiveFileNames, host.currentDirectory⟩

/-- Whether `compare_paths` finds two paths equal. -/
def pathsAreEqual (options : ComparePathsOptions) (a b : Text) : Bool :=
  let a := combinePaths options.currentDirectory [a]
  let b := combinePaths options.currentDirectory [b]
  if a = b then true
  else if a = [] || b = [] then false
  else if toFileNameLowerCase host.toLowercase (rootOf a) ≠ toFileNameLowerCase host.toLowercase (rootOf b) then false
  else if !hasRelativePathSegment (afterRoot a) && !hasRelativePathSegment (afterRoot b) then
    options.equalStrings host.toLowercase (afterRoot a) (afterRoot b)
  else
    let a := (reducePathComponents (getPathComponents a [])).tail
    let b := (reducePathComponents (getPathComponents b [])).tail
    a.length = b.length && (a.zip b).all fun (a, b) => options.equalStrings host.toLowercase a b

def containsPath (options : ComparePathsOptions) (parent child : Text) : Bool :=
  let parent := combinePaths options.currentDirectory [parent]
  let child := combinePaths options.currentDirectory [child]
  if parent = [] || child = [] then false
  else if parent = child then true
  else
    let parent := reducePathComponents (getPathComponents parent [])
    let child := reducePathComponents (getPathComponents child [])
    parent.length ≤ child.length && (parent.zip child).zipIdx.all fun ((p, c), index) =>
      if index = 0 then toFileNameLowerCase host.toLowercase p = toFileNameLowerCase host.toLowercase c
      else options.equalStrings host.toLowercase p c

def directoryExistsOrRoot (path : Text) : Bool := isDiskPathRoot path || host.directoryExists path

end TypeScriptRs.Resolver
