import TypeScriptRs.Lib.Decimal
import TypeScriptRs.Lib.Entries
import TypeScriptRs.Lib.Machine
import TypeScriptRs.Paths.Path

/-! Compiler options: how they are read from JSON, and merged. -/
namespace TypeScriptRs.Config
open Machine Utf8 Paths

inductive Json where
  | null
  | bool (value : Bool)
  | num (value : Int)
  | float (digits : Text)
  | text (value : Text)
  | array (values : List Json)
  | object (entries : List (String × Json))

namespace Json

def asObject : Json → Option (List (String × Json))
  | .object entries => some (Entries.distinct entries)
  | _ => none

def asText : Json → Option Text
  | .text value => some value
  | _ => none

def isNull : Json → Bool
  | .null => true
  | _ => false

def get (json : Json) (key : String) : Option Json := json.asObject.bind (·.lookup key)

def insert (json : Json) (key : String) (value : Json) : Json :=
  match json with
  | .object entries => .object (Entries.insert entries key value)
  | json => json

end Json

inductive FieldType where
  | tristate | text | texts | kind | size | paths

/-- The value of a field; `none` is an unknown tristate or an absent number. -/
inductive FieldValue where
  | tristate (value : Option Bool)
  | text (value : Text)
  | texts (values : List Text)
  | kind (value : Int)
  | size (value : Option Nat)
  | paths (entries : List (String × List Text))
  deriving DecidableEq

def FieldType.default : FieldType → FieldValue
  | .tristate => .tristate none
  | .text => .text []
  | .texts => .texts []
  | .kind => .kind 0
  | .size => .size none
  | .paths => .paths []

def tristateFields : List String := [
  "allowJs", "allowArbitraryExtensions", "allowImportingTsExtensions", "allowNonTsExtensions",
  "allowUmdGlobalAccess", "allowUnreachableCode", "allowUnusedLabels", "assumeChangesOnlyAffectDirectDependencies",
  "checkJs", "composite", "emitDeclarationOnly", "emitBOM", "emitDecoratorMetadata", "declaration",
  "declarationMap", "deduplicatePackages", "disableSizeLimit", "disableSourceOfProjectReferenceRedirect",
  "disableSolutionSearching", "disableReferencedProjectLoad", "erasableSyntaxOnly", "exactOptionalPropertyTypes",
  "experimentalDecorators", "forceConsistentCasingInFileNames", "isolatedModules", "isolatedDeclarations",
  "ignoreConfig", "importHelpers", "inlineSourceMap", "inlineSources", "init", "incremental", "libReplacement",
  "noEmit", "noCheck", "noErrorTruncation", "noFallthroughCasesInSwitch", "noImplicitAny", "noImplicitThis",
  "noImplicitReturns", "noEmitHelpers", "noLib", "noPropertyAccessFromIndexSignature", "noUncheckedIndexedAccess",
  "noEmitOnError", "noUnusedLocals", "noUnusedParameters", "noResolve", "noImplicitOverride",
  "noUncheckedSideEffectImports", "preserveConstEnums", "preserveSymlinks", "resolveJsonModule",
  "resolvePackageJsonExports", "resolvePackageJsonImports", "removeComments", "rewriteRelativeImportExtensions",
  "skipLibCheck", "stableTypeOrdering", "strict", "strictBindCallApply", "strictBuiltinIteratorReturn",
  "strictFunctionTypes", "strictNullChecks", "strictPropertyInitialization", "stripInternal", "skipDefaultLibCheck",
  "sourceMap", "suppressOutputPathCheck", "traceResolution", "useDefineForClassFields",
  "useUnknownInCatchVariables", "verbatimModuleSyntax", "allowSyntheticDefaultImports", "alwaysStrict",
  "downlevelIteration", "esModuleInterop", "keyofStringsOnly", "noImplicitUseStrict", "noStrictGenericChecks",
  "suppressExcessPropertyErrors", "suppressImplicitAnyIndexErrors", "noDtsResolution", "diagnostics",
  "extendedDiagnostics", "listEmittedFiles", "listFiles", "explainFiles", "listFilesOnly", "noEmitForJsFiles",
  "preserveWatchOutput", "pretty", "version", "watch", "showConfig", "build", "help", "all", "singleThreaded",
  "quiet"]

def textFields : List String := [
  "declarationDir", "ignoreDeprecations", "jsxFactory", "jsxFragmentFactory", "jsxImportSource", "locale",
  "mapRoot", "outDir", "project", "reactNamespace", "rootDir", "sourceRoot", "tsBuildInfoFile", "baseUrl",
  "outFile", "charset", "out", "configFilePath", "pathsBasePath", "generateCpuProfile", "generateTrace", "pprofDir"]

def textsFields : List String := [
  "customConditions", "lib", "moduleSuffixes", "rootDirs", "typeRoots", "types"]

def kindFields : List String := [
  "jsx", "module", "moduleResolution", "moduleDetection", "newLine", "target"]

def sizeFields : List String := [
  "maxNodeModuleJsDepth", "checkers"]

def fieldNames : List String := tristateFields ++ textFields ++ textsFields ++ kindFields ++ sizeFields ++ ["paths"]

def fieldType (name : String) : FieldType :=
  if name ∈ textFields then .text
  else if name ∈ textsFields then .texts
  else if name ∈ kindFields then .kind
  else if name ∈ sizeFields then .size
  else if name = "paths" then .paths
  else .tristate

def defaultValue (name : String) : FieldValue := (fieldType name).default

/-- The options by the names of their fields, and the fields that are not serialized. -/
structure CompilerOptions where
  values : String → FieldValue
  pathsForValidation : List (String × Json)
  typeRootsConfigured : Bool
  targetIsEs3 : Bool

def CompilerOptions.default : CompilerOptions := ⟨defaultValue, [], false, false⟩

def CompilerOptions.set (options : CompilerOptions) (name : String) (value : FieldValue) : CompilerOptions :=
  { options with values := Function.update options.values name value }

/-- A serialized field is left out when it has its default value. -/
def CompilerOptions.serialize (options : CompilerOptions) : List (String × FieldValue) :=
  fieldNames.filterMap fun name => if options.values name = defaultValue name then none else some (name, options.values name)

def deserialize (fields : List (String × FieldValue)) : CompilerOptions :=
  ⟨fun name => (fields.lookup name).getD (defaultValue name), [], false, false⟩

def mergeJsonObjects (target source : List (String × FieldValue)) : List (String × FieldValue) :=
  let defaults := CompilerOptions.default.serialize
  source.foldl (fun target e => if defaults.lookup e.1 ≠ some e.2 then Entries.insert target e.1 e.2 else target) target

def compilerOptionsOf (raw : Json) : Option (List (String × Json)) := (raw.get "compilerOptions").bind Json.asObject

def applyExplicitNullCompilerOptions (target : List (String × FieldValue)) (rawOverrides : Option Json) : List (String × FieldValue) :=
  match rawOverrides.bind compilerOptionsOf with
  | none => target
  | some compilerOptionsRaw =>
    let defaults := CompilerOptions.default.serialize
    compilerOptionsRaw.foldl (fun target e =>
      if e.2.isNull then
        match defaults.lookup e.1 with
        | some defaultValue => Entries.insert target e.1 defaultValue
        | none => Entries.remove target e.1
      else target) target

-- the fields that are not serialized, and those that merging treats apart

def restorePaths (overrides : CompilerOptions) (basePathsForValidation : List (String × Json)) (base : CompilerOptions) :
    CompilerOptions :=
  let overridePathsIsEmpty : Bool := overrides.values "paths" = .paths []
  let overridesSpecifyPaths := !overridePathsIsEmpty || !overrides.pathsForValidation.isEmpty
  if overridesSpecifyPaths then
    let base := { base with pathsForValidation := overrides.pathsForValidation }
    if !base.pathsForValidation.isEmpty && overridePathsIsEmpty then base.set "paths" (.paths []) else base
  else { base with pathsForValidation := basePathsForValidation }

def restoreTypeRoots (overrides base : CompilerOptions) : CompilerOptions :=
  if overrides.typeRootsConfigured then { base.set "typeRoots" (overrides.values "typeRoots") with typeRootsConfigured := true }
  else base

def restoreCharset (overrides base : CompilerOptions) : CompilerOptions :=
  if overrides.values "charset" ≠ .text [] then base.set "charset" (overrides.values "charset") else base

def restoreTarget (overrides base : CompilerOptions) : CompilerOptions :=
  if overrides.targetIsEs3 then { base with targetIsEs3 := true } else base

def mergeCompilerOptions (base overrides : CompilerOptions) (rawOverrides : Option Json) : CompilerOptions :=
  let merged := deserialize (applyExplicitNullCompilerOptions (mergeJsonObjects base.serialize overrides.serialize) rawOverrides)
  restoreTarget overrides <| restoreCharset overrides <| restoreTypeRoots overrides <|
    restorePaths overrides base.pathsForValidation merged

end TypeScriptRs.Config
