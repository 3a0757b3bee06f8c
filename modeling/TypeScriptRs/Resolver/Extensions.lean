import TypeScriptRs.Lib.Substrings
import TypeScriptRs.Paths.Components

/-! The extensions of file names. -/
namespace TypeScriptRs.Resolver
open Utf8 Paths

def extensionTs : Text := ".ts".toList
def extensionTsx : Text := ".tsx".toList
def extensionDts : Text := ".d.ts".toList
def extensionJs : Text := ".js".toList
def extensionJsx : Text := ".jsx".toList
def extensionJson : Text := ".json".toList
def extensionMjs : Text := ".mjs".toList
def extensionMts : Text := ".mts".toList
def extensionDmts : Text := ".d.mts".toList
def extensionCjs : Text := ".cjs".toList
def extensionCts : Text := ".cts".toList
def extensionDcts : Text := ".d.cts".toList

def extensionsToRemove : List Text :=
  [extensionDts, extensionDmts, extensionDcts, extensionMjs, extensionMts, extensionCjs, extensionCts, extensionTs, extensionJs,
    extensionTsx, extensionJsx, extensionJson]

def supportedDeclarationExtensions : List Text := [extensionDts, extensionDcts, extensionDmts]

def supportedTsImplementationExtensions : List Text := [extensionTs, extensionTsx, extensionMts, extensionCts]

def supportedTsExtensionsForExtractExtension : List Text := supportedDeclarationExtensions ++ supportedTsImplementationExtensions

def fileExtensionIs (path extension : Text) : Bool := extension.length < path.length && extension.isSuffixOf path

def fileExtensionIsOneOf (path : Text) (extensions : List Text) : Bool := extensions.any (fileExtensionIs path)

def removeExtension (path extension : Text) : Text := path.take (path.length - extension.length)

def getAnyExtensionFromPath (path : Text) : Text := ((cutAtLast ['.'] (getBaseFileName path)).map (·.2)).getD []

def removeFileExtension (path : Text) : Text :=
  match extensionsToRemove.find? (·.isSuffixOf path) with
  | some extension => removeExtension path extension
  | none => removeExtension path (getAnyExtensionFromPath path)

def tryGetExtensionFromPath (path : Text) : Text := (extensionsToRemove.find? (fileExtensionIs path)).getD []

def tryExtractTsExtension (fileName : Text) : Text :=
  (supportedTsExtensionsForExtractExtension.find? (fileExtensionIs fileName)).getD []

def getDeclarationFileExtension (fileName : Text) : Text :=
  let base := getBaseFileName fileName
  match supportedDeclarationExtensions.find? (·.isSuffixOf base) with
  | some extension => extension
  | none => if extensionTs.isSuffixOf base then ((cutAt ".d.".toList base).map (·.2)).getD [] else []

def isDeclarationFileName (fileName : Text) : Bool := getDeclarationFileExtension fileName ≠ []

def hasImplementationTsFileExtension (path : Text) : Bool :=
  fileExtensionIsOneOf path supportedTsImplementationExtensions && !isDeclarationFileName path

def extensionIsTs (extension : Text) : Bool :=
  extension ∈ [extensionTs, extensionTsx, extensionDts, extensionMts, extensionDmts, extensionCts, extensionDcts] ||
    (7 ≤ bytes extension && ".d.".toList.isPrefixOf extension && extensionTs.isSuffixOf extension)

/-- `change_extension`: only extensions of the table are replaced. -/
def changeExtension (path newExtension : Text) : Text :=
  match extensionsToRemove.find? (·.isSuffixOf (removeTrailingDirectorySeparator path)) with
  | some extension =>
    let result := removeExtension path extension
    if newExtension = [] then result
    else if newExtension.head? = some '.' then result ++ newExtension
    else result ++ '.' :: newExtension
  | none => path

def getPossibleOriginalInputExtensionForExtension (path : Text) : List Text :=
  if fileExtensionIsOneOf path [extensionDmts, extensionMjs, extensionMts] then [extensionMts, extensionMjs]
  else if fileExtensionIsOneOf path [extensionDcts, extensionCjs, extensionCts] then [extensionCts, extensionCjs]
  else
    let extension := getDeclarationFileExtension path
    if extension ≠ [] ∧ extension ≠ extensionDts then ['.' :: removeExtension (extension.drop 3) extensionTs]
    else [extensionTsx, extensionTs, extensionJsx, extensionJs]

structure Extensions where
  typescript : Bool
  javascript : Bool
  declaration : Bool
  json : Bool
  deriving DecidableEq

namespace Extensions

def onlyDeclaration : Extensions := ⟨false, false, true, false⟩

def implementationFiles : Extensions := ⟨true, true, false, false⟩

/-- `extensions & (EXTENSIONS_TYPESCRIPT | EXTENSIONS_DECLARATION)`. -/
def priority (e : Extensions) : Extensions := { e with javascript := false, json := false }

/-- `extensions & !(EXTENSIONS_TYPESCRIPT | EXTENSIONS_DECLARATION)`. -/
def secondary (e : Extensions) : Extensions := { e with typescript := false, declaration := false }

def isEmpty (e : Extensions) : Bool := !(e.typescript || e.javascript || e.declaration || e.json)

end Extensions

def extensionIsOk (extensions : Extensions) (extension : Text) : Bool :=
  (extensions.javascript && extension ∈ [extensionJs, extensionJsx, extensionMjs, extensionCjs]) ||
  (extensions.typescript && extension ∈ [extensionTs, extensionTsx, extensionMts, extensionCts]) ||
  (extensions.declaration && extension ∈ [extensionDts, extensionDmts, extensionDcts]) ||
  (extensions.json && extension = extensionJson)

example : removeFileExtension "/a/b.d.ts".toList = "/a/b".toList ∧ getDeclarationFileExtension "/a.d.b/c.d.css.ts".toList = ".d.css.ts".toList := by
  decide

end TypeScriptRs.Resolver
