import TypeScriptRs.Config.OwnConfig

/-! The declared compiler options: kinds, enumerations and paths. -/
namespace TypeScriptRs.Config
open Machine Utf8

/-- `common_options_with_build`. -/
def commonBooleans : List String := [
  "help", "watch", "preserveWatchOutput", "listFiles", "explainFiles", "listEmittedFiles", "pretty", "traceResolution",
  "diagnostics", "extendedDiagnostics", "incremental", "declaration", "declarationMap", "emitDeclarationOnly",
  "sourceMap", "inlineSourceMap", "noCheck", "deduplicatePackages", "noEmit",
  "assumeChangesOnlyAffectDirectDependencies", "quiet", "singleThreaded"]

def booleanOptions : List String := commonBooleans ++ [
  "all", "allowArbitraryExtensions", "allowImportingTsExtensions", "allowJs", "allowSyntheticDefaultImports",
  "allowUmdGlobalAccess", "allowUnreachableCode", "allowUnusedLabels", "alwaysStrict", "checkJs", "composite",
  "declaration", "declarationMap", "diagnostics", "disableReferencedProjectLoad", "disableSizeLimit",
  "disableSolutionSearching", "disableSourceOfProjectReferenceRedirect", "downlevelIteration", "emitBOM",
  "emitDeclarationOnly", "emitDecoratorMetadata", "erasableSyntaxOnly", "esModuleInterop",
  "exactOptionalPropertyTypes", "experimentalDecorators", "explainFiles", "extendedDiagnostics",
  "forceConsistentCasingInFileNames", "help", "importHelpers", "incremental", "ignoreConfig", "init",
  "inlineSourceMap", "inlineSources", "isolatedDeclarations", "isolatedModules", "keyofStringsOnly",
  "libReplacement", "listEmittedFiles", "listFiles", "listFilesOnly", "noCheck", "noEmit", "noEmitHelpers",
  "noEmitOnError", "noErrorTruncation", "noFallthroughCasesInSwitch", "noImplicitAny", "noImplicitOverride",
  "noImplicitReturns", "noImplicitThis", "noImplicitUseStrict", "noLib", "noPropertyAccessFromIndexSignature",
  "noResolve", "noStrictGenericChecks", "noUncheckedIndexedAccess", "noUncheckedSideEffectImports",
  "noUnusedLocals", "noUnusedParameters", "preserveConstEnums", "preserveSymlinks", "preserveValueImports",
  "preserveWatchOutput", "pretty", "removeComments", "resolveJsonModule", "resolvePackageJsonExports",
  "resolvePackageJsonImports", "rewriteRelativeImportExtensions", "showConfig", "skipDefaultLibCheck",
  "skipLibCheck", "sourceMap", "strict", "strictBindCallApply", "strictBuiltinIteratorReturn",
  "strictFunctionTypes", "strictNullChecks", "strictPropertyInitialization", "stableTypeOrdering", "stripInternal",
  "suppressExcessPropertyErrors", "suppressImplicitAnyIndexErrors", "traceResolution", "useDefineForClassFields",
  "useUnknownInCatchVariables", "verbatimModuleSyntax", "version", "watch"]

def stringOptions : List String := [
  "pprofDir", "baseUrl", "charset", "declarationDir", "generateCpuProfile", "generateTrace", "ignoreDeprecations",
  "jsxFactory", "jsxFragmentFactory", "jsxImportSource", "locale", "mapRoot", "out", "outDir", "outFile",
  "project", "reactNamespace", "rootDir", "sourceRoot", "tsBuildInfoFile"]

def listOptions : List String := [
  "customConditions", "lib", "moduleSuffixes", "plugins", "rootDirs", "typeRoots", "types"]

def enumOptions : List String := [
  "importsNotUsedAsValues", "jsx", "module", "moduleDetection", "moduleResolution", "newLine", "target"]

def numberOptions : List String := ["checkers", "maxNodeModuleJsDepth"]

def optionsDeclarationFor (name : String) : Option CommandLineOptionKind :=
  if name ∈ booleanOptions then some .boolean
  else if name ∈ stringOptions then some .string
  else if name ∈ listOptions then some .list
  else if name ∈ enumOptions then some .enum
  else if name ∈ numberOptions then some .number
  else if name = "paths" then some .object
  else none

/-- The options that are declared as paths, and those whose elements are. -/
def filePathOptions : List String := ["generateCpuProfile", "generateTrace", "pprofDir", "declarationDir", "outFile",
  "outDir", "rootDir", "tsBuildInfoFile", "baseUrl", "project", "rootDirs", "typeRoots"]

def libEntries : List (String × String) := [
  ("es5", "lib.es5.d.ts"), ("es6", "lib.es2015.d.ts"), ("es2015", "lib.es2015.d.ts"), ("es7", "lib.es2016.d.ts"),
  ("es2016", "lib.es2016.d.ts"), ("es2017", "lib.es2017.d.ts"), ("es2018", "lib.es2018.d.ts"),
  ("es2019", "lib.es2019.d.ts"), ("es2020", "lib.es2020.d.ts"), ("es2021", "lib.es2021.d.ts"),
  ("es2022", "lib.es2022.d.ts"), ("es2023", "lib.es2023.d.ts"), ("es2024", "lib.es2024.d.ts"),
  ("es2025", "lib.es2025.d.ts"), ("esnext", "lib.esnext.d.ts"), ("dom", "lib.dom.d.ts"),
  ("dom.iterable", "lib.dom.iterable.d.ts"), ("dom.asynciterable", "lib.dom.asynciterable.d.ts"),
  ("webworker", "lib.webworker.d.ts"), ("webworker.importscripts", "lib.webworker.importscripts.d.ts"),
  ("webworker.iterable", "lib.webworker.iterable.d.ts"),
  ("webworker.asynciterable", "lib.webworker.asynciterable.d.ts"), ("scripthost", "lib.scripthost.d.ts"),
  ("es2015.core", "lib.es2015.core.d.ts"), ("es2015.collection", "lib.es2015.collection.d.ts"),
  ("es2015.generator", "lib.es2015.generator.d.ts"), ("es2015.iterable", "lib.es2015.iterable.d.ts"),
  ("es2015.promise", "lib.es2015.promise.d.ts"), ("es2015.proxy", "lib.es2015.proxy.d.ts"),
  ("es2015.reflect", "lib.es2015.reflect.d.ts"), ("es2015.symbol", "lib.es2015.symbol.d.ts"),
  ("es2015.symbol.wellknown", "lib.es2015.symbol.wellknown.d.ts"),
  ("es2016.array.include", "lib.es2016.array.include.d.ts"), ("es2016.intl", "lib.es2016.intl.d.ts"),
  ("es2017.arraybuffer", "lib.es2017.arraybuffer.d.ts"), ("es2017.date", "lib.es2017.date.d.ts"),
  ("es2017.object", "lib.es2017.object.d.ts"), ("es2017.sharedmemory", "lib.es2017.sharedmemory.d.ts"),
  ("es2017.string", "lib.es2017.string.d.ts"), ("es2017.intl", "lib.es2017.intl.d.ts"),
  ("es2017.typedarrays", "lib.es2017.typedarrays.d.ts"),
  ("es2018.asyncgenerator", "lib.es2018.asyncgenerator.d.ts"),
  ("es2018.asynciterable", "lib.es2018.asynciterable.d.ts"), ("es2018.intl", "lib.es2018.intl.d.ts"),
  ("es2018.promise", "lib.es2018.promise.d.ts"), ("es2018.regexp", "lib.es2018.regexp.d.ts"),
  ("es2019.array", "lib.es2019.array.d.ts"), ("es2019.object", "lib.es2019.object.d.ts"),
  ("es2019.string", "lib.es2019.string.d.ts"), ("es2019.symbol", "lib.es2019.symbol.d.ts"),
  ("es2019.intl", "lib.es2019.intl.d.ts"), ("es2020.bigint", "lib.es2020.bigint.d.ts"),
  ("es2020.date", "lib.es2020.date.d.ts"), ("es2020.promise", "lib.es2020.promise.d.ts"),
  ("es2020.sharedmemory", "lib.es2020.sharedmemory.d.ts"), ("es2020.string", "lib.es2020.string.d.ts"),
  ("es2020.symbol.wellknown", "lib.es2020.symbol.wellknown.d.ts"), ("es2020.intl", "lib.es2020.intl.d.ts"),
  ("es2020.number", "lib.es2020.number.d.ts"), ("es2021.promise", "lib.es2021.promise.d.ts"),
  ("es2021.string", "lib.es2021.string.d.ts"), ("es2021.weakref", "lib.es2021.weakref.d.ts"),
  ("es2021.intl", "lib.es2021.intl.d.ts"), ("es2022.array", "lib.es2022.array.d.ts"),
  ("es2022.error", "lib.es2022.error.d.ts"), ("es2022.intl", "lib.es2022.intl.d.ts"),
  ("es2022.object", "lib.es2022.object.d.ts"), ("es2022.string", "lib.es2022.string.d.ts"),
  ("es2022.regexp", "lib.es2022.regexp.d.ts"), ("es2023.array", "lib.es2023.array.d.ts"),
  ("es2023.collection", "lib.es2023.collection.d.ts"), ("es2023.intl", "lib.es2023.intl.d.ts"),
  ("es2024.arraybuffer", "lib.es2024.arraybuffer.d.ts"), ("es2024.collection", "lib.es2024.collection.d.ts"),
  ("es2024.object", "lib.es2024.object.d.ts"), ("es2024.promise", "lib.es2024.promise.d.ts"),
  ("es2024.regexp", "lib.es2024.regexp.d.ts"), ("es2024.sharedmemory", "lib.es2024.sharedmemory.d.ts"),
  ("es2024.string", "lib.es2024.string.d.ts"), ("es2025.collection", "lib.es2025.collection.d.ts"),
  ("es2025.float16", "lib.es2025.float16.d.ts"), ("es2025.intl", "lib.es2025.intl.d.ts"),
  ("es2025.iterator", "lib.es2025.iterator.d.ts"), ("es2025.promise", "lib.es2025.promise.d.ts"),
  ("es2025.regexp", "lib.es2025.regexp.d.ts"), ("esnext.asynciterable", "lib.es2018.asynciterable.d.ts"),
  ("esnext.symbol", "lib.es2019.symbol.d.ts"), ("esnext.bigint", "lib.es2020.bigint.d.ts"),
  ("esnext.weakref", "lib.es2021.weakref.d.ts"), ("esnext.object", "lib.es2024.object.d.ts"),
  ("esnext.regexp", "lib.es2024.regexp.d.ts"), ("esnext.string", "lib.es2024.string.d.ts"),
  ("esnext.float16", "lib.es2025.float16.d.ts"), ("esnext.iterator", "lib.es2025.iterator.d.ts"),
  ("esnext.promise", "lib.es2025.promise.d.ts"), ("esnext.array", "lib.esnext.array.d.ts"),
  ("esnext.collection", "lib.esnext.collection.d.ts"), ("esnext.date", "lib.esnext.date.d.ts"),
  ("esnext.decorators", "lib.esnext.decorators.d.ts"), ("esnext.disposable", "lib.esnext.disposable.d.ts"),
  ("esnext.error", "lib.esnext.error.d.ts"), ("esnext.intl", "lib.esnext.intl.d.ts"),
  ("esnext.sharedmemory", "lib.esnext.sharedmemory.d.ts"), ("esnext.temporal", "lib.esnext.temporal.d.ts"),
  ("esnext.typedarrays", "lib.esnext.typedarrays.d.ts"), ("decorators", "lib.decorators.d.ts"),
  ("decorators.legacy", "lib.decorators.legacy.d.ts")]

def enumEntries (name : String) : Option (List (String × String)) :=
  match name with
  | "lib" => some libEntries
  | "moduleResolution" => some [
    ("classic", "Classic"), ("node", "Node10"), ("node10", "Node10"), ("node16", "Node16"), ("nodenext", "NodeNext"),
    ("bundler", "Bundler")]
  | "module" => some [
    ("commonjs", "CommonJS"), ("amd", "AMD"), ("system", "System"), ("umd", "UMD"), ("es6", "ES2015"),
    ("es2015", "ES2015"), ("es2020", "ES2020"), ("es2022", "ES2022"), ("esnext", "ESNext"), ("node16", "Node16"),
    ("node18", "Node18"), ("node20", "Node20"), ("nodenext", "NodeNext"), ("preserve", "Preserve")]
  | "target" => some [
    ("es3", "ES3"), ("es5", "ES5"), ("es6", "ES2015"), ("es2015", "ES2015"), ("es2016", "ES2016"),
    ("es2017", "ES2017"), ("es2018", "ES2018"), ("es2019", "ES2019"), ("es2020", "ES2020"), ("es2021", "ES2021"),
    ("es2022", "ES2022"), ("es2023", "ES2023"), ("es2024", "ES2024"), ("es2025", "ES2025"), ("esnext", "ESNext")]
  | "moduleDetection" => some [
    ("legacy", "Legacy"), ("auto", "Auto"), ("force", "Force")]
  | "jsx" => some [
    ("preserve", "Preserve"), ("react", "React"), ("react-native", "ReactNative"), ("react-jsx", "ReactJSX"),
    ("react-jsxdev", "ReactJSXDev")]
  | "newLine" => some [
    ("crlf", "CarriageReturnLineFeed"), ("lf", "LineFeed")]
  | _ => none

def commandLineOptionEnumMap (name : String) : Option (Text → Option Json) :=
  (enumEntries name).map fun entries key => (entries.lookup (String.ofList key)).map fun value => .text value.toList

def enumConstant (name constant : String) : Option Int :=
  match name with
  | "target" => [("ES3", 0), ("ES5", 1), ("ES2015", 2), ("ES2016", 3), ("ES2017", 4), ("ES2018", 5), ("ES2019", 6),
      ("ES2020", 7), ("ES2021", 8), ("ES2022", 9), ("ES2023", 10), ("ES2024", 11), ("ES2025", 12), ("ESNext", 99)].lookup constant
  | "module" => [("CommonJS", 1), ("AMD", 2), ("UMD", 3), ("System", 4), ("ES2015", 5), ("ES2020", 6), ("ES2022", 7),
      ("ESNext", 99), ("Node16", 100), ("Node18", 101), ("Node20", 102), ("NodeNext", 199), ("Preserve", 200)].lookup constant
  | "jsx" => [("Preserve", 1), ("ReactNative", 2), ("React", 3), ("ReactJSX", 4), ("ReactJSXDev", 5)].lookup constant
  | "moduleResolution" =>
    [("Classic", 1), ("Node10", 2), ("Node16", 3), ("NodeNext", 99), ("Bundler", 100)].lookup constant
  | "moduleDetection" => [("Auto", 1), ("Legacy", 2), ("Force", 3)].lookup constant
  | "newLine" => [("CarriageReturnLineFeed", 1), ("LineFeed", 2)].lookup constant
  | _ => none

end TypeScriptRs.Config
