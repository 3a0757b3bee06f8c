import TypeScriptRs.Incremental.Program

/-! Operations whose context may be cancelled while they run. -/
namespace TypeScriptRs.Incremental
open Machine

/-- Where an emit asks its context, or could: before its own update it does not. -/
inductive Moment where
  | discovered
  | collectUpdate
  | collected
  | emitted
  | emitUpdate
  | buildInfo

def Moment.index : Moment → Nat
  | discovered => 0
  | collectUpdate => 1
  | collected => 2
  | emitted => 3
  | emitUpdate => 4
  | buildInfo => 5

/-- What a context answers at each moment of one run. Once it is cancelled it stays so. -/
structure Context where
  cancelled : Moment → Bool
  lasts : ∀ earlier later : Moment, earlier.index ≤ later.index → cancelled earlier = true → cancelled later = true

def Context.background : Context := ⟨fun _ => false, fun _ _ _ never => never⟩

/-- The fields of a snapshot that a build info file is written from. -/
structure WrittenFields where
  fileInfos : HashMap Path FileInfo
  options : CompilerOptions
  referencedMap : HashMap Path (Finset Path)
  semanticDiagnosticsPerFile : HashMap Path CachedDiagnostics
  emitDiagnosticsPerFile : HashMap Path CachedDiagnostics
  changedFilesSet : Finset Path
  affectedFilesPendingEmit : HashMap Path FileEmitKind
  latestChangedDtsFile : String
  emitSignatures : HashMap Path EmitSignature
  hasErrors : Tristate
  hasSemanticErrors : Bool
  checkPending : Bool

def Snapshot.written (s : Snapshot) : WrittenFields where
  fileInfos := s.fileInfos
  options := s.options
  referencedMap := s.referencedMap
  semanticDiagnosticsPerFile := s.semanticDiagnosticsPerFile
  emitDiagnosticsPerFile := s.emitDiagnosticsPerFile
  changedFilesSet := s.changedFilesSet
  affectedFilesPendingEmit := s.affectedFilesPendingEmit
  latestChangedDtsFile := s.latestChangedDtsFile
  emitSignatures := s.emitSignatures
  hasErrors := s.hasErrors
  hasSemanticErrors := s.hasSemanticErrors
  checkPending := s.checkPending

section
variable (context : Context) (program : CompilerProgram)

/-- What was found is only stored by the update, which asks once more. -/
def collectAllAffectedFilesIn {s : Snapshot} (order : Enumeration s) : Outcome Snapshot :=
  if s.changedFilesSet = ∅ then .ok s
  else do
    let (result, h) ← findAffectedFiles program order
    if context.cancelled .discovered then pure h.snapshot
    else
      let h ← (order.affected result).foldlM (handleAffectedFile program order) h
      if context.cancelled .collectUpdate then pure h.snapshot else pure (updateSnapshot h)

variable (compiler : Compiler)

def emitFilesIncrementalIn (s : Snapshot) (options : EmitOptions) (isForDtsErrors : Bool) :
    Outcome (List EmitResult × Snapshot) := do
  let s ← collectAllAffectedFilesIn context program (compiler.enumeration s)
  if context.cancelled .collected then pure ([], s)
  else
    let h ← (compiler.pendingOrder.list s.affectedFilesPendingEmit.keys).foldlM
      (emitPendingFile program compiler.emitter isForDtsErrors options s) {}
    if context.cancelled .emitted then pure ([], s)
    else
      let h := (compiler.emitDiagnosticsOrder.list s.emitDiagnosticsPerFile.keys).foldl
        (addCachedErrors program compiler.toDiagnostic s) h
      pure (updateSnapshotAfterEmit program h s)

/-- The context is asked after the errors have been looked for. -/
def emitBuildInfoIn (s : Snapshot) : Option EmitResult × Snapshot :=
  match compiler.buildInfoFileName with
  | none => (none, s)
  | some buildInfoFileName =>
    let s :=
      if s.hasErrors = .unknown then
        let s := ensureHasErrorsForState program compiler s
        if s.hasErrors ≠ s.hasErrorsFromOldState ∨ s.hasSemanticErrors ≠ s.hasSemanticErrorsFromOldState then
          { s with buildInfoEmitPending := true }
        else s
      else s
    if !s.buildInfoEmitPending || context.cancelled .buildInfo then (none, s)
    else
      match compiler.couldNotWriteFile with
      | some diagnostic => (some { emitSkipped := true, diagnostics := [diagnostic] }, s)
      | none => (some { emittedFiles := [buildInfoFileName] }, { s with buildInfoEmitPending := false })

def withBuildInfoIn (result : EmitResult) (s : Snapshot) : EmitResult × Snapshot :=
  match emitBuildInfoIn context program compiler s with
  | (none, s) => (result, s)
  | (some buildInfoResult, s) =>
    ({ result with
        diagnostics := result.diagnostics ++ buildInfoResult.diagnostics
        emittedFiles := result.emittedFiles ++ buildInfoResult.emittedFiles }, s)

def emitAllAffectedFilesIn (s : Snapshot) (options : EmitOptions) (isForDtsErrors : Bool) :
    Outcome (Option EmitResult × Snapshot) :=
  if s.canUseIncrementalState then do
    let (results, s) ← emitFilesIncrementalIn context program compiler s options isForDtsErrors
    if isForDtsErrors then
      match options.targetSourceFile with
      | some file =>
        let diagnostics := (s.emitDiagnosticsPerFile.lookup file).getD ⟨[], []⟩
        pure (some { emitSkipped := true, diagnostics := getDiagnostics compiler diagnostics file }, s)
      | none => pure (some (combineEmitResults results), s)
    else
      let (result, s) := withBuildInfoIn context program compiler (combineEmitResults results) s
      pure (some result, s)
  else if !isForDtsErrors then do
    let (result, writes) ← emitWithOptions s compiler.emitter options {}
    let (_, s) := updateSnapshotAfterEmit program { writes := writes } s
    match result with
    | none => pure (none, s)
    | some result =>
      let (result, s) := withBuildInfoIn context program compiler result s
      pure (some result, s)
  else
    let diagnostics := compiler.emitter.getDeclarationDiagnostics options.targetSourceFile
    .ok (some { emitSkipped := true, diagnostics := diagnostics },
      { s with hasEmitDiagnostics := s.hasEmitDiagnostics || !diagnostics.isEmpty })
end

variable {program : CompilerProgram} {compiler : Compiler}

theorem collectAllAffectedFilesIn_background {s : Snapshot} (order : Enumeration s) :
    collectAllAffectedFilesIn .background program order = collectAllAffectedFiles program order := rfl

theorem emitFilesIncrementalIn_background (s : Snapshot) (options : EmitOptions) (isForDtsErrors : Bool) :
    emitFilesIncrementalIn .background program compiler s options isForDtsErrors =
      emitFilesIncremental program compiler s options isForDtsErrors := rfl

theorem emitBuildInfoIn_background (s : Snapshot) :
    emitBuildInfoIn .background program compiler s = emitBuildInfo program compiler s := by
  unfold emitBuildInfoIn emitBuildInfo
  simp only [Context.background, Bool.or_false]
  all_goals rfl

theorem emitAllAffectedFilesIn_background (s : Snapshot) (options : EmitOptions) (isForDtsErrors : Bool) :
    emitAllAffectedFilesIn .background program compiler s options isForDtsErrors =
      emitAllAffectedFiles program compiler s options isForDtsErrors := by
  have written : ∀ result t, withBuildInfoIn .background program compiler result t =
      withBuildInfo program compiler result t := by
    intro result t
    unfold withBuildInfoIn withBuildInfo
    rw [emitBuildInfoIn_background]
    all_goals rfl
  unfold emitAllAffectedFilesIn emitAllAffectedFiles
  simp only [written, emitFilesIncrementalIn_background]
  all_goals rfl

end TypeScriptRs.Incremental
