import TypeScriptRs.Incremental.AffectedFiles

/-! Emitting the files that wait for it. -/
namespace TypeScriptRs.Incremental
open Machine

/-- Emitting nothing in particular and emitting everything are the same request. -/
inductive EmitOnly where
  | all
  | js
  | dts
  | forcedDts
  deriving DecidableEq

structure EmitResult where
  emitSkipped : Bool := false
  diagnostics : List Diagnostic := []
  emittedFiles : List String := []

def combineEmitResults (results : List EmitResult) : EmitResult where
  emitSkipped := results.any EmitResult.emitSkipped
  diagnostics := results.flatMap EmitResult.diagnostics
  emittedFiles := results.flatMap EmitResult.emittedFiles

/-- A declaration file as the compiler hands it over for writing. -/
structure DeclarationOutput where
  fileName : String
  /-- The hash of the text, without the reference to the source map. -/
  textHash : String
  /-- The hash of the text and of the diagnostics. -/
  signatureWithDiagnostics : String
  diagnostics : List Diagnostic

/-- What the compiler does when it is asked to emit: the declaration files it writes, in
order, and its result. -/
structure Emitter where
  emit : Option Path → EmitOnly → List DeclarationOutput × Option EmitResult
  getDeclarationDiagnostics : Option Path → List Diagnostic

structure EmitOptions where
  targetSourceFile : Option Path
  emitOnly : EmitOnly

structure EmitUpdate where
  pendingKind : FileEmitKind
  result : Option EmitResult
  dtsErrorsFromCache : Bool

structure EmitWriteState where
  signatures : HashMap Path String := ∅
  emitSignatures : HashMap Path EmitSignature := ∅
  latestChangedDtsFiles : HashMap Path String := ∅
  hasEmitDiagnostics : Bool := false

def EmitWriteState.extend (before new : EmitWriteState) : EmitWriteState where
  signatures := new.signatures ∪ before.signatures
  emitSignatures := new.emitSignatures ∪ before.emitSignatures
  latestChangedDtsFiles := new.latestChangedDtsFiles ∪ before.latestChangedDtsFiles
  hasEmitDiagnostics := before.hasEmitDiagnostics || new.hasEmitDiagnostics

structure EmitFilesHandler where
  writes : EmitWriteState := {}
  deletedPendingKinds : Finset Path := ∅
  emitUpdates : HashMap Path EmitUpdate := ∅

section
variable (s : Snapshot)

/-- The signature that the file's declarations had when they were last written. -/
def oldDtsSignature : Option EmitSignature → Outcome String
  | none => .ok ""
  | some format =>
    if format.signature ≠ "" then .ok format.signature
    else
      match format.signatureWithDifferentOptions with
      | first :: _ => .ok first
      | [] => .panic "index out of bounds: the len is 0 but the index is 0"

/-- A composite project remembers the signatures of its declaration files; one that did not
change is not written. -/
def skipDtsOutputOfComposite (file : Path) (output : DeclarationOutput) (newSignature : String)
    (state : EmitWriteState) : Outcome EmitWriteState :=
  if !s.options.composite then .ok state
  else do
    let oldSignatureFormat := s.emitSignatures.lookup file
    let oldSignature ← oldDtsSignature oldSignatureFormat
    let newSignature := if newSignature = "" then output.textHash else newSignature
    if newSignature = oldSignature ∧ oldSignatureFormat.map EmitSignature.signature = some oldSignature then
      pure state
    else
      let state :=
        if newSignature = oldSignature then state
        else { state with latestChangedDtsFiles := state.latestChangedDtsFiles.insert file output.fileName }
      pure { state with emitSignatures := state.emitSignatures.insert file ⟨newSignature, []⟩ }

/-- The hook that sees every declaration file before it is written. -/
def writeDeclaration (targetSourceFile : Option Path) (state : EmitWriteState) (output : DeclarationOutput) :
    Outcome EmitWriteState :=
  if s.canUseIncrementalState then
    match targetSourceFile, targetSourceFile.bind s.fileInfos.lookup with
    | none, _ => .panic "incremental declaration emit requires target source file"
    | some _, none => .panic "incremental declaration emit requires file info"
    | some file, some info =>
      if info.signature = info.version then
        let signature := output.signatureWithDiagnostics
        let emitSignature := if output.diagnostics.isEmpty then signature else ""
        let state :=
          if signature ≠ info.version then { state with signatures := state.signatures.insert file signature }
          else state
        skipDtsOutputOfComposite s file output emitSignature state
      else skipDtsOutputOfComposite s file output "" state
  else .ok { state with hasEmitDiagnostics := state.hasEmitDiagnostics || !output.diagnostics.isEmpty }

/-- Let the compiler emit. Without declarations nothing is remembered. -/
def emitWithOptions (emitter : Emitter) (options : EmitOptions) (writes : EmitWriteState) :
    Outcome (Option EmitResult × EmitWriteState) :=
  let (declarations, result) := emitter.emit options.targetSourceFile options.emitOnly
  if !s.options.getEmitDeclarations then .ok (result, writes)
  else do
    let state ← declarations.foldlM (writeDeclaration s options.targetSourceFile) {}
    pure (result, writes.extend state)
end

variable (program : CompilerProgram) (emitter : Emitter) (isForDtsErrors : Bool) (options : EmitOptions)

def getPendingEmitKindForEmitOptions (emitKind : FileEmitKind) : FileEmitKind :=
  let pendingKind := getPendingEmitKind emitKind 0
  let pendingKind := if options.emitOnly = .dts then pendingKind &&& fileEmitKindAllDts else pendingKind
  if isForDtsErrors then pendingKind &&& fileEmitKindDtsErrors else pendingKind

def emitOnlyOfKind (pendingKind : FileEmitKind) : EmitOnly :=
  if pendingKind &&& fileEmitKindAllDts ≠ 0 then
    if pendingKind &&& fileEmitKindAllJs ≠ 0 then .all else .dts
  else if pendingKind &&& fileEmitKindAllJs ≠ 0 then .js
  else .all

/-- The file that a path waits for, when it can be emitted at all. -/
def emittedFile (path : Path) : Option Path :=
  (program.getSourceFileByPath path).filter program.sourceFileMayBeEmitted

def emitPendingFile (s : Snapshot) (h : EmitFilesHandler) (path : Path) : Outcome EmitFilesHandler :=
  match emittedFile program path with
  | none => .ok { h with deletedPendingKinds := insert path h.deletedPendingKinds }
  | some affectedFile =>
    let emitKind := (s.affectedFilesPendingEmit.lookup path).getD 0
    let pendingKind := getPendingEmitKindForEmitOptions isForDtsErrors options emitKind
    if pendingKind = 0 then .ok h
    else do
      let (result, writes) ←
        if !isForDtsErrors then emitWithOptions s emitter ⟨some affectedFile, emitOnlyOfKind pendingKind⟩ h.writes
        else
          let diagnostics := emitter.getDeclarationDiagnostics (some affectedFile)
          pure (some { emitSkipped := true, diagnostics := diagnostics }, h.writes)
      let update : EmitUpdate := ⟨getPendingEmitKind emitKind pendingKind, result, false⟩
      pure { h with writes := writes, emitUpdates := h.emitUpdates.insert path update }

def cachedEmitDiagnostics (toDiagnostic : Path → BuildInfoDiagnosticWithFileName → Diagnostic)
    (diagnostics : CachedDiagnostics) (file : Path) : List Diagnostic :=
  if !diagnostics.diagnostics.isEmpty then diagnostics.diagnostics
  else diagnostics.buildInfoDiagnostics.map (toDiagnostic file)

def addCachedErrors (toDiagnostic : Path → BuildInfoDiagnosticWithFileName → Diagnostic) (s : Snapshot)
    (h : EmitFilesHandler) (path : Path) : EmitFilesHandler :=
  if path ∈ h.emitUpdates then h
  else
    match emittedFile program path, s.emitDiagnosticsPerFile.lookup path with
    | some affectedFile, some diagnostics =>
      let result := { emitSkipped := true, diagnostics := cachedEmitDiagnostics toDiagnostic diagnostics affectedFile }
      let update : EmitUpdate := ⟨(s.affectedFilesPendingEmit.lookup path).getD 0, some result, true⟩
      { h with emitUpdates := h.emitUpdates.insert path update }
    | _, _ => { h with deletedPendingKinds := insert path h.deletedPendingKinds }

def storeWrites (h : EmitFilesHandler) (s : Snapshot) : Snapshot :=
  { s with
    fileInfos := s.fileInfos.alterAll fun path info =>
      some { info with signature := (h.writes.signatures.lookup path).getD info.signature }
    emitSignatures := h.writes.emitSignatures ∪ s.emitSignatures
    affectedFilesPendingEmit := s.affectedFilesPendingEmit.alterAll fun path kind =>
      if path ∈ h.deletedPendingKinds then none else some kind
    buildInfoEmitPending := s.buildInfoEmitPending || decide (∃ path ∈ h.writes.signatures.keys, path ∈ s.fileInfos) ||
      decide (h.writes.emitSignatures.keys.Nonempty) || decide (h.deletedPendingKinds.Nonempty) }

def updateFile (h : EmitFilesHandler) (s : Snapshot) (file : Path) : Snapshot :=
  let s := match h.writes.latestChangedDtsFiles.lookup file with
    | some latestChangedDtsFile =>
      { s with
        latestChangedDtsFile := latestChangedDtsFile
        buildInfoEmitPending := true
        hasChangedDtsFile := true }
    | none => s
  match h.emitUpdates.lookup file with
  | none => s
  | some update =>
    let s :=
      if update.dtsErrorsFromCache then s
      else
        { s with
          affectedFilesPendingEmit :=
            if update.pendingKind = 0 then s.affectedFilesPendingEmit.erase file
            else s.affectedFilesPendingEmit.insert file update.pendingKind
          buildInfoEmitPending := true }
    match update.result with
    | some result =>
      if result.diagnostics.isEmpty then s
      else { s with emitDiagnosticsPerFile := s.emitDiagnosticsPerFile.insert file ⟨result.diagnostics, []⟩ }
    | none => s

def updateSnapshotAfterEmit (h : EmitFilesHandler) (s : Snapshot) : List EmitResult × Snapshot :=
  if s.canUseIncrementalState then
    (program.getSourceFiles.filterMap fun file => (h.emitUpdates.lookup file).bind EmitUpdate.result,
      program.getSourceFiles.foldl (updateFile h) (storeWrites h s))
  else ([], { s with hasEmitDiagnostics := s.hasEmitDiagnostics || h.writes.hasEmitDiagnostics })

end TypeScriptRs.Incremental
