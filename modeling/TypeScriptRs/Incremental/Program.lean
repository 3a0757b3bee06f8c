import TypeScriptRs.Incremental.EmitFiles
import TypeScriptRs.Incremental.ProgramToSnapshot

/-! Asking an incremental program for diagnostics, and emitting. -/
namespace TypeScriptRs.Incremental
open Machine

structure KeyOrder where
  list : Finset Path → List Path
  nodup : ∀ keys, (list keys).Nodup
  mem_list : ∀ keys p, p ∈ list keys ↔ p ∈ keys

/-- What the compiler answers during one operation, and the orders in which the hash tables
list their keys. -/
structure Compiler where
  enumeration : ∀ s, Enumeration s
  pendingOrder : KeyOrder
  emitDiagnosticsOrder : KeyOrder
  emitter : Emitter
  getSemanticDiagnosticsWithoutNoEmitFiltering : List Path → HashMap Path (List Diagnostic)
  /-- The files that were asked for are the files that are answered. -/
  oneEntryPerFile : ∀ files f, f ∈ getSemanticDiagnosticsWithoutNoEmitFiltering files ↔ f ∈ files
  toDiagnostic : Path → BuildInfoDiagnosticWithFileName → Diagnostic
  filterNoEmitSemanticDiagnostics : List Diagnostic → List Diagnostic
  getIncludeProcessorDiagnostics : Path → List Diagnostic
  getConfigFileParsingDiagnostics : List Diagnostic
  getSyntacticDiagnostics : Option Path → List Diagnostic
  getProgramDiagnostics : List Diagnostic
  getGlobalDiagnostics : List Diagnostic
  /-- The global diagnostics, with those found during checking. -/
  getGlobalDiagnosticsAgain : List Diagnostic
  sortAndDeduplicateDiagnostics : List Diagnostic → List Diagnostic
  /-- The build info file, unless there is none or it may not be written. -/
  buildInfoFileName : Option String
  /-- Writing the build info file fails with a diagnostic. -/
  couldNotWriteFile : Option Diagnostic

variable (program : CompilerProgram) (compiler : Compiler)

def commitSemanticDiagnostics (s : Snapshot) (affectedFiles : List Path) : Snapshot :=
  let diagnosticsPerFile := compiler.getSemanticDiagnosticsWithoutNoEmitFiltering affectedFiles
  let semanticDiagnosticsPerFile :=
    HashMap.ofKeys diagnosticsPerFile.keys (fun file => (diagnosticsPerFile.lookup file).map (⟨·, []⟩)) ∪
      s.semanticDiagnosticsPerFile
  { s with
    semanticDiagnosticsPerFile := semanticDiagnosticsPerFile
    checkPending :=
      if semanticDiagnosticsPerFile.keys.card = program.getSourceFiles.length ∧ s.checkPending ∧
        !s.options.noCheck then false else s.checkPending
    buildInfoEmitPending := true }

def cacheSemanticDiagnostics (s : Snapshot) : Option Path → Snapshot
  | some file =>
    if file ∈ s.semanticDiagnosticsPerFile then s else commitSemanticDiagnostics program compiler s [file]
  | none =>
    commitSemanticDiagnostics program compiler s
      (program.getSourceFiles.filter fun file => file ∉ s.semanticDiagnosticsPerFile)

/-- Handle the changed files and cache the diagnostics of all files or of the one asked
for. When there are as many entries as files, nothing is checked. -/
def collectSemanticDiagnosticsOfAffectedFiles (s : Snapshot) (file : Option Path) : Outcome Snapshot :=
  if s.canUseIncrementalState then do
    let s ← collectAllAffectedFiles program (compiler.enumeration s)
    if s.semanticDiagnosticsPerFile.keys.card = program.getSourceFiles.length then pure s
    else pure (cacheSemanticDiagnostics program compiler s file)
  else .ok (cacheSemanticDiagnostics program compiler s file)

/-- The cached diagnostics, converted when they were read from a build info file. -/
def getDiagnostics (diagnostics : CachedDiagnostics) (file : Path) : List Diagnostic :=
  cachedEmitDiagnostics compiler.toDiagnostic diagnostics file

def getSemanticDiagnosticsOfFile (s : Snapshot) (file : Path) : Outcome (List Diagnostic) :=
  match s.semanticDiagnosticsPerFile.lookup file with
  | none => .panic "After handling all the affected files, there shouldnt be more changes"
  | some cachedDiagnostics =>
    .ok (compiler.filterNoEmitSemanticDiagnostics (getDiagnostics compiler cachedDiagnostics file) ++
      compiler.getIncludeProcessorDiagnostics file)

def getSemanticDiagnostics (s : Snapshot) (file : Option Path) : Outcome (List Diagnostic × Snapshot) :=
  if s.options.noCheck then .ok ([], s)
  else do
    let s ← collectSemanticDiagnosticsOfAffectedFiles program compiler s file
    match file with
    | some file =>
      let diagnostics ← getSemanticDiagnosticsOfFile compiler s file
      pure (diagnostics, s)
    | none =>
      let diagnostics ← program.getSourceFiles.mapM (getSemanticDiagnosticsOfFile compiler s)
      pure (diagnostics.flatten, s)

def ensureHasErrorsForState (s : Snapshot) : Snapshot :=
  let files := program.getSourceFiles
  let hasEmitDiagnostics :=
    if s.canUseIncrementalState then decide (∃ file ∈ files, file ∈ s.emitDiagnosticsPerFile)
    else s.hasEmitDiagnostics
  let hasIncludeProcessingDiagnostics := files.any fun file => !(compiler.getIncludeProcessorDiagnostics file).isEmpty
  if hasEmitDiagnostics then
    { s with hasErrors := if s.options.isIncremental then .false else .true, hasSemanticErrors := false }
  else if hasIncludeProcessingDiagnostics || !compiler.getConfigFileParsingDiagnostics.isEmpty ||
      !(compiler.getSyntacticDiagnostics none).isEmpty || !compiler.getProgramDiagnostics.isEmpty ||
      !compiler.getGlobalDiagnostics.isEmpty then
    { s with hasErrors := .true, hasSemanticErrors := false }
  else
    let found := files.any fun file =>
      match s.semanticDiagnosticsPerFile.lookup file with
      | none => s.options.isIncremental
      | some diagnostics => !diagnostics.diagnostics.isEmpty || !diagnostics.buildInfoDiagnostics.isEmpty
    { s with
      hasErrors := .false
      hasSemanticErrors := if found then !s.options.isIncremental else s.hasSemanticErrors }

def emitBuildInfo (s : Snapshot) : Option EmitResult × Snapshot :=
  match compiler.buildInfoFileName with
  | none => (none, s)
  | some buildInfoFileName =>
    let s :=
      if s.hasErrors = .unknown then
        let s := ensureHasErrorsForState program compiler s
        if s.hasErrors ≠ s.hasErrorsFromOldState ∨ s.hasSemanticErrors ≠ s.hasSemanticErrorsFromOldState then
          { s with buildInfoEmitPending := true }
        else s
      else s
    if !s.buildInfoEmitPending then (none, s)
    else
      match compiler.couldNotWriteFile with
      | some diagnostic => (some { emitSkipped := true, diagnostics := [diagnostic] }, s)
      | none => (some { emittedFiles := [buildInfoFileName] }, { s with buildInfoEmitPending := false })

def withBuildInfo (result : EmitResult) (s : Snapshot) : EmitResult × Snapshot :=
  match emitBuildInfo program compiler s with
  | (none, s) => (result, s)
  | (some buildInfoResult, s) =>
    ({ result with
        diagnostics := result.diagnostics ++ buildInfoResult.diagnostics
        emittedFiles := result.emittedFiles ++ buildInfoResult.emittedFiles }, s)

def emitFilesIncremental (s : Snapshot) (options : EmitOptions) (isForDtsErrors : Bool) :
    Outcome (List EmitResult × Snapshot) := do
  let s ← collectAllAffectedFiles program (compiler.enumeration s)
  let h ← (compiler.pendingOrder.list s.affectedFilesPendingEmit.keys).foldlM
    (emitPendingFile program compiler.emitter isForDtsErrors options s) {}
  let h := (compiler.emitDiagnosticsOrder.list s.emitDiagnosticsPerFile.keys).foldl
    (addCachedErrors program compiler.toDiagnostic s) h
  pure (updateSnapshotAfterEmit program h s)

def emitAllAffectedFiles (s : Snapshot) (options : EmitOptions) (isForDtsErrors : Bool) :
    Outcome (Option EmitResult × Snapshot) :=
  if s.canUseIncrementalState then do
    let (results, s) ← emitFilesIncremental program compiler s options isForDtsErrors
    if isForDtsErrors then
      match options.targetSourceFile with
      | some file =>
        let diagnostics := (s.emitDiagnosticsPerFile.lookup file).getD ⟨[], []⟩
        pure (some { emitSkipped := true, diagnostics := getDiagnostics compiler diagnostics file }, s)
      | none => pure (some (combineEmitResults results), s)
    else
      let (result, s) := withBuildInfo program compiler (combineEmitResults results) s
      pure (some result, s)
  else if !isForDtsErrors then do
    let (result, writes) ← emitWithOptions s compiler.emitter options {}
    let (_, s) := updateSnapshotAfterEmit program { writes := writes } s
    match result with
    | none => pure (none, s)
    | some result =>
      let (result, s) := withBuildInfo program compiler result s
      pure (some result, s)
  else
    let diagnostics := compiler.emitter.getDeclarationDiagnostics options.targetSourceFile
    .ok (some { emitSkipped := true, diagnostics := diagnostics },
      { s with hasEmitDiagnostics := s.hasEmitDiagnostics || !diagnostics.isEmpty })

def emitFiles (s : Snapshot) (options : EmitOptions) (isForDtsErrors : Bool) :
    Outcome (Option EmitResult × Snapshot) :=
  if !isForDtsErrors && options.targetSourceFile.isSome then do
    let (result, writes) ← emitWithOptions s compiler.emitter options {}
    pure (result, (updateSnapshotAfterEmit program { writes := writes } s).2)
  else emitAllAffectedFiles program compiler s options isForDtsErrors

def getDeclarationDiagnostics (s : Snapshot) (file : Option Path) : Outcome (List Diagnostic × Snapshot) := do
  let (result, s) ← emitFiles program compiler s ⟨file, .all⟩ true
  pure ((result.map EmitResult.diagnostics).getD [], s)

/-- The diagnostics that keep a program from being emitted: each kind is only asked for
while nothing was found. -/
def getDiagnosticsOfAnyProgram (s : Snapshot) (file : Option Path) (skipNoEmitCheckForDtsDiagnostics : Bool) :
    Outcome (List Diagnostic × Snapshot) := do
  let config := compiler.getConfigFileParsingDiagnostics
  let all := config ++ compiler.getSyntacticDiagnostics file ++ compiler.getProgramDiagnostics
  if all.length ≠ config.length || s.options.listFilesOnly then
    return (compiler.sortAndDeduplicateDiagnostics all, s)
  let all := all ++ compiler.getGlobalDiagnostics
  let (all, s) ←
    if all.length = config.length then do
      let (diagnostics, s) ← getSemanticDiagnostics program compiler s file
      pure (all ++ diagnostics ++ compiler.getGlobalDiagnosticsAgain, s)
    else pure (all, s)
  let (all, s) ←
    if (skipNoEmitCheckForDtsDiagnostics || s.options.noEmit) && s.options.getEmitDeclarations &&
        all.length == config.length then do
      let (diagnostics, s) ← getDeclarationDiagnostics program compiler s file
      pure (all ++ diagnostics, s)
    else pure (all, s)
  return (compiler.sortAndDeduplicateDiagnostics all, s)

def handleNoEmitOnError (s : Snapshot) (file : Option Path) : Outcome (Option EmitResult × Snapshot) :=
  if !s.options.noEmitOnError then .ok (none, s)
  else do
    let (diagnostics, s) ← getDiagnosticsOfAnyProgram program compiler s file true
    if diagnostics.isEmpty then pure (none, s)
    else pure (some { emitSkipped := true, diagnostics := diagnostics }, s)

def emit (s : Snapshot) (options : EmitOptions) : Outcome (Option EmitResult × Snapshot) := do
  let (result, s) ←
    if s.options.noEmit then pure (some { emitSkipped := true }, s)
    else handleNoEmitOnError program compiler s options.targetSourceFile
  match result with
  | some result =>
    if options.targetSourceFile.isSome then pure (some result, s)
    else
      let (result, s) := withBuildInfo program compiler result s
      pure (some result, s)
  | none => emitFiles program compiler s options false

end TypeScriptRs.Incremental
