import TypeScriptRs.Config.OwnConfig

/-! Parsing a config together with the configs that it extends. -/
namespace TypeScriptRs.Config
open Machine Utf8 Paths

namespace Host

variable (host : Host)

def convertToRelativePath (path : Text) (options : ComparePathsOptions) : Text :=
  if getEncodedRootLength path > 0 then
    getPathFromPathComponents (getPathComponentsRelativeTo host.toLowercase options.currentDirectory path options)
  else path

/-- A path of an extended config, as seen from a config that extends it. -/
def rebasePath (extendedConfigPath basePath path : Text) : Text :=
  if startsWithConfigDirTemplate path ∨ getEncodedRootLength path > 0 then path
  else
    let relativeDifference := host.convertToRelativePath (getDirectoryPath extendedConfigPath) ⟨host.useCaseSensitiveFileNames, basePath⟩
    combinePaths relativeDifference [path]

def rebaseList (extendedConfigPath basePath : Text) (slice : List Json) : List Json :=
  (slice.filterMap Json.asText).map fun path => .text (host.rebasePath extendedConfigPath basePath path)

/-- The property of a config, from an extended config when it has none. -/
def applyExtendedProperty (extended : Json) (extendedConfigPath basePath : Text) (raw : Json) (propertyName : String) : Json :=
  if (raw.get propertyName).isSome then raw
  else match extended.get propertyName with
    | some (.array slice) => raw.insert propertyName (.array (host.rebaseList extendedConfigPath basePath slice))
    | _ => raw

def listProperties : List String := ["include", "exclude", "files"]

def applyCompileOnSave (extended raw : Json) : Json :=
  match extended.get "compileOnSave" with
  | some (.bool compileOnSave) =>
    if (raw.get "compileOnSave").isNone then raw.insert "compileOnSave" (.bool compileOnSave) else raw
  | _ => raw

/-- The config and the options of those it extends, after one more of them. -/
def applyExtendedConfig (ownConfig extendedConfig : ParsedTsconfig) (extendedConfigPath basePath : Text)
    (result : CompilerOptions) : ParsedTsconfig × CompilerOptions :=
  let raw := listProperties.foldl (host.applyExtendedProperty extendedConfig.raw extendedConfigPath basePath) ownConfig.raw
  ({ ownConfig with raw := applyCompileOnSave extendedConfig.raw raw },
    mergeCompilerOptions result extendedConfig.options (some extendedConfig.raw))

/-- The JSON of an extended config, unless its text has errors. -/
def extendedJson (path : Text) : Option Json :=
  match host.readFile path with
  | some text => if (host.parseConfigText text).2 then none else some (host.parseConfigText text).1
  | none => some .null

/-- The loop over the configs of an `extends`. -/
def extendWith (load : Text → Outcome (Option ParsedTsconfig)) (basePath : Text) :
    List Text → ParsedTsconfig → CompilerOptions → Outcome (ParsedTsconfig × CompilerOptions)
  | [], own, result => .ok (own, result)
  | path :: paths, own, result =>
    (load path).bind fun extended =>
      match extended with
      | none => extendWith load basePath paths own result
      | some extended =>
        let applied := host.applyExtendedConfig own extended path basePath result
        extendWith load basePath paths applied.1 applied.2

def outOfFuel : String := "out of fuel"

def parseConfigWorker : Nat → Json → Text → Text → List Text → Outcome ParsedTsconfig
  | 0, _, _, _, _ => .err outOfFuel
  | fuel + 1, json, basePath, configFileName, resolutionStack =>
    let basePath := normalizeSlashes basePath
    let resolvedPath := getNormalizedAbsolutePath configFileName basePath
    if resolvedPath ∈ resolutionStack then .ok ⟨json, .default, []⟩
    else
      (host.ownConfig json basePath configFileName).bind fun own =>
        if own.extendedConfigPath = [] then .ok own
        else
          let load (path : Text) : Outcome (Option ParsedTsconfig) :=
            match host.extendedJson path with
            | none => .ok none
            | some json => (parseConfigWorker fuel json (getDirectoryPath path) (getBaseFileName path)
                (resolutionStack ++ [resolvedPath])).bind fun config => .ok (some config)
          (host.extendWith load basePath own.extendedConfigPath own .default).bind fun applied =>
            .ok { applied.1 with options := mergeCompilerOptions applied.2 own.options (some applied.1.raw) }

end Host

end TypeScriptRs.Config

namespace TypeScriptRs.Config
open Machine Utf8

mutual

/-- An expression of a config file. A number, also behind a minus sign, is the text of its token. -/
inductive Expr where
  | trueKeyword
  | falseKeyword
  | nullKeyword
  | stringLiteral (text : Text)
  | numericLiteral (text : Text)
  | minus (text : Text)
  | objectLiteral (properties : Properties)
  | arrayLiteral (elements : Elements)
  | other

inductive Elements where
  | none
  | more (element : Expr) (rest : Elements)

/-- The elements of an object: assignments to a key, which may be no string literal, and others. -/
inductive Properties where
  | none
  | other (rest : Properties)
  | assignment (stringLiteral : Bool) (keyText : Text) (initializer : Expr) (rest : Properties)
  | bare (stringLiteral : Bool) (keyText : Text) (rest : Properties)
end

inductive SyntaxError where
  | propertyValue
  | propertyAssignmentExpected
  | stringLiteralExpected
  deriving DecidableEq

/-- The JSON number of the text of a numeric literal, as `to_string` shows it, when the number is finite; and the natural
number that the text stands for, if it stands for one. -/
structure Numbers where
  shown : Text → Option Text
  value : Text → Option Nat

def finiteLiteral : String := "finite numeric literal"

namespace Numbers

variable (numbers : Numbers)

def convertNumber (text : Text) : Outcome (Json × List SyntaxError) :=
  match numbers.shown text with
  | some digits => .ok (.float digits, [])
  | none => .panic finiteLiteral

def nameErrors (stringLiteral : Bool) : List SyntaxError := if stringLiteral then [] else [.stringLiteralExpected]

def insertProperty (result : List (String × Json)) (keyText : Text) (value : Json) : List (String × Json) :=
  if keyText = [] then result else Entries.insert result (String.ofList keyText) value

mutual

def convertPropertyValueToJson : Expr → Outcome (Json × List SyntaxError)
  | .trueKeyword => .ok (.bool true, [])
  | .falseKeyword => .ok (.bool false, [])
  | .nullKeyword => .ok (.null, [])
  | .stringLiteral text => .ok (.text text, [])
  | .numericLiteral text => numbers.convertNumber text
  | .minus text => numbers.convertNumber ('-' :: text)
  | .objectLiteral properties => (convertProperties properties [] []).bind fun converted => .ok (.object converted.1, converted.2)
  | .arrayLiteral elements => (convertElements elements).bind fun converted => .ok (.array converted.1, converted.2)
  | .other => .ok (.null, [.propertyValue])

def convertElements : Elements → Outcome (List Json × List SyntaxError)
  | .none => .ok ([], [])
  | .more element rest =>
    (convertPropertyValueToJson element).bind fun first =>
      (convertElements rest).bind fun more => .ok (first.1 :: more.1, first.2 ++ more.2)

def convertProperties : Properties → List (String × Json) → List SyntaxError → Outcome (List (String × Json) × List SyntaxError)
  | .none, result, errors => .ok (result, errors)
  | .other rest, result, errors => convertProperties rest result (errors ++ [.propertyAssignmentExpected])
  | .assignment stringLiteral keyText initializer rest, result, errors =>
    (convertPropertyValueToJson initializer).bind fun value =>
      convertProperties rest (insertProperty result keyText value.1) (errors ++ nameErrors stringLiteral ++ value.2)
  | .bare stringLiteral keyText rest, result, errors =>
    convertProperties rest (insertProperty result keyText .null) (errors ++ nameErrors stringLiteral)
end

end Numbers

end TypeScriptRs.Config
