import TypeScriptRs.Incremental.Snapshot
import TypeScriptRs.Lib.Entries
import TypeScriptRs.Lib.Wire

/-! The values of a build info file, and how each is written as JSON and read back. -/
namespace TypeScriptRs.Incremental
open Wire

abbrev BuildInfoFileId := Int32
abbrev BuildInfoFileIdListId := Int32

abbrev ModuleKind := Int32

def ResolutionMode.moduleKind : ResolutionMode → ModuleKind
  | none => 0
  | commonJS => 1
  | esm => 99

structure BuildInfoRoot where
  start : BuildInfoFileId := 0
  end_ : BuildInfoFileId := 0
  nonIncremental : String := ""
  deriving DecidableEq

def rootCodec : Codec BuildInfoRoot where
  encode root :=
    if root.start ≠ 0 then
      if root.end_ ≠ 0 then (Codec.pair .int32 .int32).encode (root.start, root.end_)
      else Codec.int32.encode root.start
    else Codec.string.encode root.nonIncremental
  decode value :=
    (((Codec.pair .int32 .int32).decode value).map fun (start, end_) => { start, end_ }) <|>
    ((Codec.int32.decode value).map fun start => { start }) <|>
    ((Codec.string.decode value).map fun name => { nonIncremental := name })

structure BuildInfoResolvedRoot where
  resolved : BuildInfoFileId := 0
  root : BuildInfoFileId := 0

def resolvedRootCodec : Codec BuildInfoResolvedRoot where
  encode entry := (Codec.pair .int32 .int32).encode (entry.resolved, entry.root)
  decode
    | .null => some {}
    | value => ((Codec.pair .int32 .int32).decode value).map fun (resolved, root) => { resolved, root }

structure BuildInfoReferenceMapEntry where
  fileId : BuildInfoFileId := 0
  fileIdListId : BuildInfoFileIdListId := 0

def referenceMapEntryCodec : Codec BuildInfoReferenceMapEntry where
  encode entry := (Codec.pair .int32 .int32).encode (entry.fileId, entry.fileIdListId)
  decode value := ((Codec.pair .int32 .int32).decode value).map fun (fileId, fileIdListId) => { fileId, fileIdListId }

structure BuildInfoFileInfoNoSignature where
  version : String := ""
  noSignature : Bool := false
  affectsGlobalScope : Bool := false
  impliedNodeFormat : ModuleKind := 0

def noSignatureCodec : Codec BuildInfoFileInfoNoSignature where
  encode info := .object <| record [
      field "version" (info.version = "") (Codec.string.encode info.version),
      field "noSignature" (!info.noSignature) (Codec.bool.encode info.noSignature),
      field "affectsGlobalScope" (!info.affectsGlobalScope) (Codec.bool.encode info.affectsGlobalScope),
      field "impliedNodeFormat" (isDefault info.impliedNodeFormat) (Codec.int32.encode info.impliedNodeFormat)]
  decode
    | .object entries => do
      let version ← fieldOr .string "" "version" entries
      let noSignature ← fieldOr .bool false "noSignature" entries
      let affectsGlobalScope ← fieldOr .bool false "affectsGlobalScope" entries
      let impliedNodeFormat ← fieldOr .int32 0 "impliedNodeFormat" entries
      pure { version, noSignature, affectsGlobalScope, impliedNodeFormat }
    | _ => none

structure BuildInfoFileInfoWithSignature where
  version : String := ""
  signature : String := ""
  affectsGlobalScope : Bool := false
  impliedNodeFormat : ModuleKind := 0

def withSignatureCodec : Codec BuildInfoFileInfoWithSignature where
  encode info := .object <| record [
      field "version" (info.version = "") (Codec.string.encode info.version),
      field "signature" (info.signature = "") (Codec.string.encode info.signature),
      field "affectsGlobalScope" (!info.affectsGlobalScope) (Codec.bool.encode info.affectsGlobalScope),
      field "impliedNodeFormat" (isDefault info.impliedNodeFormat) (Codec.int32.encode info.impliedNodeFormat)]
  decode
    | .object entries => do
      let version ← fieldOr .string "" "version" entries
      let signature ← fieldOr .string "" "signature" entries
      let affectsGlobalScope ← fieldOr .bool false "affectsGlobalScope" entries
      let impliedNodeFormat ← fieldOr .int32 0 "impliedNodeFormat" entries
      pure { version, signature, affectsGlobalScope, impliedNodeFormat }
    | _ => none

structure BuildInfoFileInfo where
  signature : String := ""
  noSignature : Option BuildInfoFileInfoNoSignature := none
  fileInfo : Option BuildInfoFileInfoWithSignature := none

def fileInfoCodec : Codec BuildInfoFileInfo where
  encode info :=
    if info.signature ≠ "" then Codec.string.encode info.signature
    else
      match info.noSignature, info.fileInfo with
      | some noSignature, _ => noSignatureCodec.encode noSignature
      | none, some fileInfo => withSignatureCodec.encode fileInfo
      | none, none => .null
  decode
    | .null => some {}
    | value =>
      ((Codec.string.decode value).map fun signature => { signature }) <|>
      (((noSignatureCodec.decode value).filter (·.noSignature)).map fun noSignature => { noSignature := some noSignature }) <|>
      ((withSignatureCodec.decode value).map fun fileInfo => { fileInfo := some fileInfo })

inductive RepopulateDiagnosticKind where
  | modeMismatch | moduleNotFound

def repopulateKindCodec : Codec RepopulateDiagnosticKind where
  encode
    | .modeMismatch => .integer 1
    | .moduleNotFound => .integer 2
  decode
    | .integer 1 => some .modeMismatch
    | .integer 2 => some .moduleNotFound
    | _ => none

structure BuildInfoRepopulateInfo where
  kind : RepopulateDiagnosticKind
  moduleReference : String := ""
  mode : ModuleKind := 0
  packageName : String := ""

def repopulateInfoCodec : Codec BuildInfoRepopulateInfo where
  encode info := .object <| record [
      field "kind" false (repopulateKindCodec.encode info.kind),
      field "moduleReference" (info.moduleReference = "") (Codec.string.encode info.moduleReference),
      field "mode" (isDefault info.mode) (Codec.int32.encode info.mode),
      field "packageName" (info.packageName = "") (Codec.string.encode info.packageName)]
  decode
    | .object entries => do
      let kind ← (find "kind" entries).bind repopulateKindCodec.decode
      let moduleReference ← fieldOr .string "" "moduleReference" entries
      let mode ← fieldOr .int32 0 "mode" entries
      let packageName ← fieldOr .string "" "packageName" entries
      pure { kind, moduleReference, mode, packageName }
    | _ => none

structure BuildInfoDiagnostic where
  file : BuildInfoFileId := 0
  noFile : Bool := false
  pos : Int32 := 0
  end_ : Int32 := 0
  code : Int32 := 0
  category : Int32 := 0
  messageKey : String := ""
  messageArgs : List String := []
  messageChain : List BuildInfoDiagnostic := []
  relatedInformation : List BuildInfoDiagnostic := []
  reportsUnnecessary : Bool := false
  reportsDeprecated : Bool := false
  skippedOnNoEmit : Bool := false
  repopulateInfo : Option BuildInfoRepopulateInfo := none

mutual

def encodeDiagnostic : BuildInfoDiagnostic → Value
  | ⟨file, noFile, pos, end_, code, category, messageKey, messageArgs, messageChain, relatedInformation, reportsUnnecessary,
      reportsDeprecated, skippedOnNoEmit, repopulateInfo⟩ => .object <| record [
      field "file" (isDefault file) (Codec.int32.encode file),
      field "noFile" (!noFile) (Codec.bool.encode noFile),
      field "pos" (isDefault pos) (Codec.int32.encode pos),
      field "end" (isDefault end_) (Codec.int32.encode end_),
      field "code" (isDefault code) (Codec.int32.encode code),
      field "category" (isDefault category) (Codec.int32.encode category),
      field "messageKey" (messageKey = "") (Codec.string.encode messageKey),
      field "messageArgs" messageArgs.isEmpty ((Codec.list .string).encode messageArgs),
      field "messageChain" messageChain.isEmpty (.array (encodeDiagnostics messageChain)),
      field "relatedInformation" relatedInformation.isEmpty (.array (encodeDiagnostics relatedInformation)),
      field "reportsUnnecessary" (!reportsUnnecessary) (Codec.bool.encode reportsUnnecessary),
      field "reportsDeprecated" (!reportsDeprecated) (Codec.bool.encode reportsDeprecated),
      field "skippedOnNoEmit" (!skippedOnNoEmit) (Codec.bool.encode skippedOnNoEmit),
      field "repopulateInfo" repopulateInfo.isNone ((repopulateInfo.map repopulateInfoCodec.encode).getD .null)]

def encodeDiagnostics : List BuildInfoDiagnostic → List Value
  | [] => []
  | diagnostic :: rest => encodeDiagnostic diagnostic :: encodeDiagnostics rest
end

/-- A field of a diagnostic other than its lists of diagnostics; a field of another name is skipped. -/
def setField (d : BuildInfoDiagnostic) (key : String) (value : Value) : Option BuildInfoDiagnostic :=
  match key with
  | "file" => (Codec.int32.decode value).map ({ d with file := · })
  | "noFile" => (Codec.bool.decode value).map ({ d with noFile := · })
  | "pos" => (Codec.int32.decode value).map ({ d with pos := · })
  | "end" => (Codec.int32.decode value).map ({ d with end_ := · })
  | "code" => (Codec.int32.decode value).map ({ d with code := · })
  | "category" => (Codec.int32.decode value).map ({ d with category := · })
  | "messageKey" => (Codec.string.decode value).map ({ d with messageKey := · })
  | "messageArgs" => ((Codec.list .string).decode value).map ({ d with messageArgs := · })
  | "reportsUnnecessary" => (Codec.bool.decode value).map ({ d with reportsUnnecessary := · })
  | "reportsDeprecated" => (Codec.bool.decode value).map ({ d with reportsDeprecated := · })
  | "skippedOnNoEmit" => (Codec.bool.decode value).map ({ d with skippedOnNoEmit := · })
  | "repopulateInfo" =>
    match value with
    | .null => some { d with repopulateInfo := none }
    | value => (repopulateInfoCodec.decode value).map ({ d with repopulateInfo := some · })
  | _ => some d

mutual

def decodeDiagnostic : Value → Option BuildInfoDiagnostic
  | .object entries => decodeFields entries {}
  | _ => none

/-- The fields one after another, over those that are read already. -/
def decodeFields : List (String × Value) → BuildInfoDiagnostic → Option BuildInfoDiagnostic
  | [], d => some d
  | (key, value) :: rest, d =>
    if key = "messageChain" then do
      let messageChain ← decodeDiagnosticArray value
      decodeFields rest { d with messageChain }
    else if key = "relatedInformation" then do
      let relatedInformation ← decodeDiagnosticArray value
      decodeFields rest { d with relatedInformation }
    else do
      let d ← setField d key value
      decodeFields rest d

def decodeDiagnosticArray : Value → Option (List BuildInfoDiagnostic)
  | .array values => decodeDiagnostics values
  | _ => none

def decodeDiagnostics : List Value → Option (List BuildInfoDiagnostic)
  | [] => some []
  | value :: rest => do
    let first ← decodeDiagnostic value
    let others ← decodeDiagnostics rest
    pure (first :: others)
end

def diagnosticsCodec : Codec (List BuildInfoDiagnostic) := ⟨fun diagnostics => .array (encodeDiagnostics diagnostics), decodeDiagnosticArray⟩

structure BuildInfoDiagnosticsOfFile where
  fileId : BuildInfoFileId := 0
  diagnostics : List BuildInfoDiagnostic := []

def diagnosticsOfFileCodec : Codec BuildInfoDiagnosticsOfFile where
  encode entry := (Codec.pair .int32 diagnosticsCodec).encode (entry.fileId, entry.diagnostics)
  decode value := ((Codec.pair .int32 diagnosticsCodec).decode value).map fun (fileId, diagnostics) => { fileId, diagnostics }

structure BuildInfoSemanticDiagnostic where
  fileId : BuildInfoFileId := 0
  diagnostics : Option BuildInfoDiagnosticsOfFile := none

def semanticDiagnosticCodec : Codec BuildInfoSemanticDiagnostic where
  encode entry :=
    if entry.fileId ≠ 0 then Codec.int32.encode entry.fileId
    else (entry.diagnostics.map diagnosticsOfFileCodec.encode).getD .null
  decode
    | .null => some {}
    | value =>
      ((Codec.int32.decode value).map fun fileId => { fileId }) <|>
      ((diagnosticsOfFileCodec.decode value).map fun diagnostics => { diagnostics := some diagnostics })

structure BuildInfoFilePendingEmit where
  fileId : BuildInfoFileId := 0
  emitKind : FileEmitKind := 0

def pendingEmitCodec : Codec BuildInfoFilePendingEmit where
  encode pending :=
    if pending.emitKind = 0 then Codec.int32.encode pending.fileId
    else if pending.emitKind = fileEmitKindDts then (Codec.list .int32).encode [pending.fileId]
    else (Codec.list .int32).encode [pending.fileId, Int32.ofBitVec pending.emitKind]
  decode
    | .null => some {}
    | value =>
      ((Codec.int32.decode value).map fun fileId => { fileId }) <|>
      (((Codec.list .int32).decode value).bind fun
        | [fileId] => some { fileId, emitKind := fileEmitKindDts }
        | [fileId, emitKind] => some { fileId, emitKind := emitKind.toBitVec }
        | _ => none)

structure BuildInfoEmitSignature where
  fileId : BuildInfoFileId := 0
  signature : String := ""
  differsOnlyInDtsMap : Bool := false
  differsInOptions : Bool := false

def BuildInfoEmitSignature.noEmitSignature (emit : BuildInfoEmitSignature) : Bool :=
  emit.signature = "" && !emit.differsOnlyInDtsMap && !emit.differsInOptions

/-- `as_f64`, cast to 32 bits: what is beyond them is cut to the nearest. -/
def numberAsFileId : Value → Option BuildInfoFileId
  | .integer value => some (saturated value)
  | .float value => some (saturated (if 0 ≤ value then ⌊value⌋ else ⌈value⌉))
  | _ => none
where
  saturated (value : Int) : Int32 := Int32.ofInt (max (-2 ^ 31) (min (2 ^ 31 - 1) value))

def emitSignatureCodec : Codec BuildInfoEmitSignature where
  encode emit :=
    if emit.noEmitSignature then Codec.int32.encode emit.fileId
    else
      let signature : Value :=
        if emit.differsOnlyInDtsMap then .array []
        else if emit.differsInOptions then .array [.string emit.signature]
        else .string emit.signature
      .array [Codec.int32.encode emit.fileId, signature]
  decode
    | .null => some {}
    | value =>
      ((Codec.int32.decode value).map fun fileId => { fileId }) <|>
      match value with
      | .array [fileId, signature] => do
        let fileId ← numberAsFileId fileId
        match signature with
        | .string signature => pure { fileId, signature }
        | .array [] => pure { fileId, differsOnlyInDtsMap := true }
        | .array [.string signature] => pure { fileId, signature, differsInOptions := true }
        | _ => none
      | _ => none

/-- An `OrderedMap`: the keys in the order in which they were set first. -/
abbrev OrderedMap := List (String × Value)

def optionsCodec : Codec OrderedMap where
  encode options := .object options
  decode
    | .object entries => some (entries.foldl (fun options entry => Entries.insert options entry.1 entry.2) [])
    | _ => none

structure BuildInfo where
  version : String := ""
  errors : Bool := false
  checkPending : Bool := false
  root : List BuildInfoRoot := []
  fileNames : List String := []
  fileInfos : List BuildInfoFileInfo := []
  fileInfosPresent : Bool := false
  fileIdsList : List (List BuildInfoFileId) := []
  options : OrderedMap := []
  referencedMap : List BuildInfoReferenceMapEntry := []
  semanticDiagnosticsPerFile : List BuildInfoSemanticDiagnostic := []
  emitDiagnosticsPerFile : List BuildInfoDiagnosticsOfFile := []
  changeFileSet : List BuildInfoFileId := []
  affectedFilesPendingEmit : List BuildInfoFilePendingEmit := []
  latestChangedDtsFile : String := ""
  emitSignatures : List BuildInfoEmitSignature := []
  resolvedRoot : List BuildInfoResolvedRoot := []
  semanticErrors : Bool := false

def optional {α : Type} (codec : Codec α) : Codec (Option α) where
  encode value := (value.map codec.encode).getD .null
  decode
    | .null => some none
    | value => (codec.decode value).map some

def buildInfoCodec : Codec BuildInfo where
  encode info := .object <| record [
      field "version" (info.version = "") (Codec.string.encode info.version),
      field "errors" (!info.errors) (Codec.bool.encode info.errors),
      field "checkPending" (!info.checkPending) (Codec.bool.encode info.checkPending),
      field "root" info.root.isEmpty ((Codec.list rootCodec).encode info.root),
      field "fileNames" info.fileNames.isEmpty ((Codec.list .string).encode info.fileNames),
      field "fileInfos" (!(info.fileInfosPresent || !info.fileInfos.isEmpty))
        ((optional (Codec.list fileInfoCodec)).encode (some info.fileInfos)),
      field "fileIdsList" info.fileIdsList.isEmpty ((Codec.list (.list .int32)).encode info.fileIdsList),
      field "options" info.options.isEmpty (optionsCodec.encode info.options),
      field "referencedMap" info.referencedMap.isEmpty ((Codec.list referenceMapEntryCodec).encode info.referencedMap),
      field "semanticDiagnosticsPerFile" info.semanticDiagnosticsPerFile.isEmpty
        ((Codec.list semanticDiagnosticCodec).encode info.semanticDiagnosticsPerFile),
      field "emitDiagnosticsPerFile" info.emitDiagnosticsPerFile.isEmpty
        ((Codec.list diagnosticsOfFileCodec).encode info.emitDiagnosticsPerFile),
      field "changeFileSet" info.changeFileSet.isEmpty ((Codec.list .int32).encode info.changeFileSet),
      field "affectedFilesPendingEmit" info.affectedFilesPendingEmit.isEmpty
        ((Codec.list pendingEmitCodec).encode info.affectedFilesPendingEmit),
      field "latestChangedDtsFile" (info.latestChangedDtsFile = "") (Codec.string.encode info.latestChangedDtsFile),
      field "emitSignatures" info.emitSignatures.isEmpty ((Codec.list emitSignatureCodec).encode info.emitSignatures),
      field "resolvedRoot" info.resolvedRoot.isEmpty ((Codec.list resolvedRootCodec).encode info.resolvedRoot),
      field "semanticErrors" (!info.semanticErrors) (Codec.bool.encode info.semanticErrors)]
  decode
    | .object entries => do
      let version ← fieldOr .string "" "version" entries
      let errors ← fieldOr .bool false "errors" entries
      let checkPending ← fieldOr .bool false "checkPending" entries
      let root ← fieldOr (.list rootCodec) [] "root" entries
      let fileNames ← fieldOr (.list .string) [] "fileNames" entries
      let fileInfos ← fieldOr (optional (.list fileInfoCodec)) none "fileInfos" entries
      let fileIdsList ← fieldOr (.list (.list .int32)) [] "fileIdsList" entries
      let options ← fieldOr optionsCodec [] "options" entries
      let referencedMap ← fieldOr (.list referenceMapEntryCodec) [] "referencedMap" entries
      let semanticDiagnosticsPerFile ← fieldOr (.list semanticDiagnosticCodec) [] "semanticDiagnosticsPerFile" entries
      let emitDiagnosticsPerFile ← fieldOr (.list diagnosticsOfFileCodec) [] "emitDiagnosticsPerFile" entries
      let changeFileSet ← fieldOr (.list .int32) [] "changeFileSet" entries
      let affectedFilesPendingEmit ← fieldOr (.list pendingEmitCodec) [] "affectedFilesPendingEmit" entries
      let latestChangedDtsFile ← fieldOr .string "" "latestChangedDtsFile" entries
      let emitSignatures ← fieldOr (.list emitSignatureCodec) [] "emitSignatures" entries
      let resolvedRoot ← fieldOr (.list resolvedRootCodec) [] "resolvedRoot" entries
      let semanticErrors ← fieldOr .bool false "semanticErrors" entries
      pure {
        version, errors, checkPending, root, fileNames, fileInfos := fileInfos.getD [], fileInfosPresent := fileInfos.isSome
        fileIdsList, options, referencedMap, semanticDiagnosticsPerFile, emitDiagnosticsPerFile, changeFileSet
        affectedFilesPendingEmit, latestChangedDtsFile, emitSignatures, resolvedRoot, semanticErrors }
    | _ => none

end TypeScriptRs.Incremental
