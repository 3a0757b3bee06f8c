import TypeScriptRs.Config.CompilerOptions
import TypeScriptRs.Paths.Relative

/-! The options that a config has of its own, and the configs that it extends. -/
namespace TypeScriptRs.Config
open Machine Utf8 Paths

def isWhitespace (c : Char) : Bool :=
  c.toNat ∈ [0x20, 0x85, 0xA0, 0x1680, 0x2028, 0x2029, 0x202F, 0x205F, 0x3000] || (0x9 ≤ c.toNat && c.toNat ≤ 0xD) ||
    (0x2000 ≤ c.toNat && c.toNat ≤ 0x200A)

def trim (text : Text) : Text := ((text.dropWhile isWhitespace).reverse.dropWhile isWhitespace).reverse

def toAsciiLowercase (text : Text) : Text := text.map Char.toLower

/-- `parse::<i64>`. -/
def parseI64 (text : Text) : Option Int :=
  let negative := text.head? = some '-'
  let digits := if text.head? = some '-' ∨ text.head? = some '+' then text.tail else text
  if digits = [] ∨ ¬ digits.all Char.isDigit then none
  else
    let n : Int := Decimal.valueOf (digits.map fun c => c.toNat - '0'.toNat)
    let value := if negative then -n else n
    if -2 ^ 63 ≤ value ∧ value < 2 ^ 63 then some value else none

def decimal (n : Nat) : Text := (Decimal.digitsOf n).map fun d => Char.ofNat ('0'.toNat + d)

def isTrue (value : Text) : Bool := value = "true".toList || value = "True".toList || value = "1".toList

inductive CommandLineOptionKind where
  | boolean | number | string | object | list | listOrElement | enum

/-- What the parsing of configs uses of its surroundings: the files, the parser of their texts, the resolution of
packages, the JSON library, the lower case of characters, and the declared options with their enumerations. -/
structure Host where
  useCaseSensitiveFileNames : Bool
  fileExists : Text → Bool
  readFile : Text → Option Text
  parseConfigText : Text → Json × Bool
  resolveConfig : Text → Text → Option Text
  toLowercase : Char → Text
  fromStr : Text → Option Json
  toText : Json → Text
  optionsDeclarationFor : String → Option CommandLineOptionKind
  commandLineOptionEnumMap : String → Option (Text → Option Json)

namespace Host

variable (host : Host)

def valueToConfigString : Json → Text
  | .text value => value
  | .bool value => if value then "true".toList else "false".toList
  | .num value => if value < 0 then '-' :: decimal value.natAbs else decimal value.natAbs
  | .float digits => digits
  | .null => "null".toList
  | value => host.toText value

def parseListValue (value : Text) : Json :=
  match host.fromStr value with
  | some parsed => parsed
  | none => if trim value = [] then .array [] else .array (((trim value).splitOn ',').map .text)

def lookupName {β : Type} (table : List (String × β)) (value : Text) : Option β := table.lookup (String.ofList value)

def coreEnumOptionJsonValue (name : String) (value : Text) : Option Json :=
  let value := toAsciiLowercase value
  let numeric := match name with
    | "target" => lookupName [("es3", 0), ("es5", 1), ("es6", 2), ("es2015", 2), ("es2016", 3), ("es2017", 4), ("es2018", 5),
        ("es2019", 6), ("es2020", 7), ("es2021", 8), ("es2022", 9), ("es2023", 10), ("es2024", 11), ("es2025", 12), ("esnext", 99)] value
    | "module" => lookupName [("commonjs", 1), ("amd", 2), ("system", 4), ("umd", 3), ("es6", 5), ("es2015", 5), ("es2020", 6),
        ("es2022", 7), ("esnext", 99), ("node16", 100), ("node18", 101), ("node20", 102), ("nodenext", 199), ("preserve", 200)] value
    | "jsx" => lookupName [("preserve", 1), ("react-native", 2), ("react", 3), ("react-jsx", 4), ("react-jsxdev", 5)] value
    | "moduleResolution" =>
      lookupName [("classic", 1), ("node", 2), ("node10", 2), ("node16", 3), ("nodenext", 99), ("bundler", 100)] value
    | "moduleDetection" => lookupName [("auto", 1), ("legacy", 2), ("force", 3)] value
    | "newLine" => lookupName [("crlf", 1), ("lf", 2)] value
    | _ => none
  numeric.map .num

/-- The elements of a list option, by the enumeration of the option. -/
def enumElement (enumMap : Text → Option Json) : Json → Option Json
  | .text value =>
    let key := toAsciiLowercase (trim value)
    if key = [] then none else enumMap key
  | value => some value

def compilerOptionJsonValue (name : String) (value : Text) (kind : CommandLineOptionKind) : Option Json :=
  match kind with
  | .boolean => some (.bool (isTrue value))
  | .number => (parseI64 value).map .num
  | .string => some (.text value)
  | .object => if value = "null".toList then none else some ((host.fromStr value).getD (.text value))
  | .list | .listOrElement =>
    if value = "null".toList then none
    else match host.commandLineOptionEnumMap name, host.parseListValue value with
      | some enumMap, .array values => some (.array (values.filterMap (enumElement enumMap)))
      | _, value => some value
  | .enum =>
    if value = "null".toList then none
    else ((parseI64 value).map .num).or <| (coreEnumOptionJsonValue name value).or <|
      (host.commandLineOptionEnumMap name).bind fun enumMap => enumMap (toAsciiLowercase value)

def optionJsonValue (name : String) (value : Text) : Option Json :=
  if name = "build" then some (.bool (value ≠ "false".toList))
  else if name = "allowNonTsExtensions" then some (.bool (isTrue value))
  else (host.optionsDeclarationFor name).bind fun kind => host.compilerOptionJsonValue name value kind

def isTextArray : Json → Bool
  | .array values => values.all fun value => value.asText.isSome
  | _ => false

def pathsForValidation (value : Option Json) : List (String × Json) :=
  match value.bind Json.asObject with
  | none => []
  | some entries => if entries.any fun e => !isTextArray e.2 then entries else []

def compilerOptionsPathsJsonValue (value : Json) : Json :=
  .object ((value.asObject.getD []).filterMap fun e =>
    match e.2 with
    | .array values => some (e.1, .array ((values.filterMap Json.asText).map .text))
    | _ => none)

def texts : Json → Option (List Text)
  | .array values => values.mapM Json.asText
  | _ => none

def readField : FieldType → Json → Option FieldValue
  | .tristate, .bool value => some (.tristate (some value))
  | .tristate, _ => some (.tristate none)
  | .text, .text value => some (.text value)
  | .texts, value => (texts value).map .texts
  | .kind, .num value => if -2 ^ 31 ≤ value ∧ value < 2 ^ 31 then some (.kind value) else none
  | .size, .null => some (.size none)
  | .size, .num value => if 0 ≤ value then some (.size (some value.toNat)) else none
  | .paths, .object entries => (entries.mapM fun e => (texts e.2).map (e.1, ·)).map .paths
  | _, _ => none

def readFieldOf (json : List (String × Json)) (name : String) : Option FieldValue :=
  match json.lookup name with
  | some value => readField (fieldType name) value
  | none => some (defaultValue name)

def fromValue (json : List (String × Json)) : Outcome (String → FieldValue) :=
  if fieldNames.all fun name => (readFieldOf json name).isSome then .ok fun name => (readFieldOf json name).getD (defaultValue name)
  else .panic "compiler options parsed from validated tsconfig values"

def jsonObjectToStringMap (entries : List (String × Json)) : List (String × Text) :=
  entries.filterMap fun e => if e.2.isNull then none else some (e.1, host.valueToConfigString e.2)

def compilerOptions (options : List (String × Text)) : Outcome CompilerOptions :=
  let json := options.filterMap fun e => (host.optionJsonValue e.1 e.2).map (e.1, ·)
  let pathsForValidation := pathsForValidation (json.lookup "paths")
  let json := json.map fun e => if e.1 = "paths" then (e.1, compilerOptionsPathsJsonValue e.2) else e
  (fromValue json).bind fun values =>
    let result : CompilerOptions := {
      values
      pathsForValidation
      targetIsEs3 := (options.lookup "target").any fun value => toAsciiLowercase value = "es3".toList
      typeRootsConfigured := (options.lookup "typeRoots").isSome }
    .ok (match options.lookup "pathsBasePath" with
      | some pathsBasePath => result.set "pathsBasePath" (.text pathsBasePath)
      | none => result)

def getDefaultCompilerOptions (configFileName : Text) : CompilerOptions :=
  if configFileName ≠ [] ∧ getBaseFileName configFileName = "jsconfig.json".toList then
    (((CompilerOptions.default.set "allowJs" (.tristate (some true))).set "maxNodeModuleJsDepth" (.size (some 2))).set
      "skipLibCheck" (.tristate (some true))).set "noEmit" (.tristate (some true))
  else .default

def startsWithConfigDirTemplate (value : Text) : Bool :=
  (toAsciiLowercase "${configDir}".toList).isPrefixOf (toAsciiLowercase value)

def normalizeCompilerOptionPath (basePath value : Text) : Text :=
  if value = [] ∨ startsWithConfigDirTemplate value then value
  else
    let value := getNormalizedAbsolutePath value basePath
    if value = [] then ['.'] else value

def pathFields : List String := ["generateCpuProfile", "generateTrace", "outFile", "outDir", "project", "rootDir",
  "tsBuildInfoFile", "baseUrl", "declarationDir"]

def normalizeFieldPaths (basePath : Text) : FieldValue → FieldValue
  | .text value => .text (normalizeCompilerOptionPath basePath value)
  | .texts values => .texts (values.map (normalizeCompilerOptionPath basePath))
  | value => value

def normalizeCompilerOptionPaths (options : CompilerOptions) (basePath : Text) : CompilerOptions :=
  { options with values := fun name =>
      if name ∈ pathFields ∨ name = "rootDirs" ∨ (name = "typeRoots" ∧ options.typeRootsConfigured) then
        normalizeFieldPaths basePath (options.values name)
      else options.values name }

def convertCompilerOptionsFromJsonWorker (jsonOptions : Option Json) (basePath configFileName : Text) : Outcome CompilerOptions :=
  let options := getDefaultCompilerOptions configFileName
  let options := match jsonOptions.bind Json.asObject with
    | some entries => (host.compilerOptions (host.jsonObjectToStringMap entries)).bind fun parsed =>
      .ok (normalizeCompilerOptionPaths (mergeCompilerOptions options parsed none) basePath)
    | none => .ok options
  options.bind fun options =>
    .ok (if configFileName ≠ [] then options.set "configFilePath" (.text (normalizeSlashes configFileName)) else options)

def directoryOfCombinedPath (fileName basePath : Text) : Text := getDirectoryPath (getNormalizedAbsolutePath fileName basePath)

def getExtendsConfigPath (extendedConfig basePath : Text) : Option Text :=
  let extendedConfig := normalizeSlashes extendedConfig
  if getEncodedRootLength extendedConfig > 0 ∨ "./".toList.isPrefixOf extendedConfig ∨ "../".toList.isPrefixOf extendedConfig then
    let extendedConfigPath := getNormalizedAbsolutePath extendedConfig basePath
    if ¬ host.fileExists extendedConfigPath ∧ ¬ ".json".toList.isSuffixOf extendedConfigPath then
      let extendedConfigPath := extendedConfigPath ++ ".json".toList
      if host.fileExists extendedConfigPath then some extendedConfigPath else none
    else some extendedConfigPath
  else host.resolveConfig extendedConfig (combinePaths basePath ["tsconfig.json".toList])

def getExtendsConfigPathOrArrayValue (value : Json) (basePath configFileName : Text) : List Text :=
  let newBase := if configFileName = [] then basePath else directoryOfCombinedPath configFileName basePath
  match value with
  | .text path => (host.getExtendsConfigPath path newBase).toList
  | .array paths => (paths.filterMap Json.asText).filterMap fun path => host.getExtendsConfigPath path newBase
  | _ => []

structure ParsedTsconfig where
  raw : Json
  options : CompilerOptions
  extendedConfigPath : List Text

def parseOwnConfigOfJson (json : Json) (basePath configFileName : Text) : Outcome ParsedTsconfig :=
  (host.convertCompilerOptionsFromJsonWorker (json.get "compilerOptions") basePath configFileName).bind fun options =>
    .ok {
      raw := json
      options
      extendedConfigPath := match json.get "extends" with
        | some value => if value.isNull then [] else host.getExtendsConfigPathOrArrayValue value basePath configFileName
        | none => [] }

def ownConfig (json : Json) (basePath configFileName : Text) : Outcome ParsedTsconfig :=
  (host.parseOwnConfigOfJson json basePath configFileName).bind fun own =>
    .ok (if own.options.values "paths" ≠ .paths [] then { own with options := own.options.set "pathsBasePath" (.text basePath) }
      else own)

end Host

end TypeScriptRs.Config
