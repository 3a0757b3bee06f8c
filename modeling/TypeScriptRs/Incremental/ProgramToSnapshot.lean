import TypeScriptRs.Incremental.Discovery

/-! The snapshot of a new program, from the program before it. -/
namespace TypeScriptRs.Incremental
open Machine

/-- An incremental program. One that was read from a build info file has no program of
the compiler. -/
structure Program where
  snapshot : Snapshot
  program : Option CompilerProgram

structure OptionEffects where
  compilerOptionsAffectSemanticDiagnostics : CompilerOptions → CompilerOptions → Bool
  compilerOptionsAffectDeclarationPath : CompilerOptions → CompilerOptions → Bool
  compilerOptionsAffectEmit : CompilerOptions → CompilerOptions → Bool

/-- A message chain as the checker builds it for the new program, if it has to be built again. -/
abbrev RepopulateDiagnosticMessageChain := Path → List Diagnostic → Option (List Diagnostic)

def repopulateDiagnostic (repopulate : List Diagnostic → Option (List Diagnostic)) : Diagnostic → Diagnostic
  | .mk file messageChain relatedInformation =>
    .mk file ((repopulate messageChain).getD messageChain) relatedInformation

def repopulateDiagnosticsOfFile (repopulate : RepopulateDiagnosticMessageChain) (diags : CachedDiagnostics)
    (file : Path) : CachedDiagnostics :=
  if !diags.diagnostics.isEmpty || diags.buildInfoDiagnostics.isEmpty then
    if diags.diagnostics.any fun | .mk _ messageChain _ => (repopulate file messageChain).isSome then
      ⟨diags.diagnostics.map (repopulateDiagnostic (repopulate file)), []⟩
    else diags
  else diags

/-- Which cached results of the old program can be used for files that did not change. -/
structure CopyRules where
  canCopySemanticDiagnostics : Bool
  canCopyEmitSignatures : Bool
  copyDeclarationFileDiagnostics : Bool
  copyLibFileDiagnostics : Bool

variable (effects : OptionEffects) (repopulate : RepopulateDiagnosticMessageChain) (program : CompilerProgram)

def copyRules (s : Snapshot) (old : Program) : CopyRules :=
  let canCopySemanticDiagnostics :=
    !effects.compilerOptionsAffectSemanticDiagnostics old.snapshot.options program.options
  let copyDeclarationFileDiagnostics :=
    canCopySemanticDiagnostics && s.options.skipLibCheck == old.snapshot.options.skipLibCheck
  { canCopySemanticDiagnostics := canCopySemanticDiagnostics
    canCopyEmitSignatures := s.options.composite &&
      !effects.compilerOptionsAffectDeclarationPath old.snapshot.options program.options
    copyDeclarationFileDiagnostics := copyDeclarationFileDiagnostics
    copyLibFileDiagnostics := copyDeclarationFileDiagnostics &&
      s.options.skipDefaultLibCheck == old.snapshot.options.skipDefaultLibCheck }

def reuseFromOldProgram (s : Snapshot) : Option Program → Snapshot
  | some old =>
    { s with
      latestChangedDtsFile :=
        if s.options.composite then old.snapshot.latestChangedDtsFile else s.latestChangedDtsFile
      changedFilesSet := s.changedFilesSet ∪ old.snapshot.changedFilesSet
      affectedFilesPendingEmit := old.snapshot.affectedFilesPendingEmit ∪ s.affectedFilesPendingEmit
      buildInfoEmitPending := old.snapshot.buildInfoEmitPending
      hasErrorsFromOldState := old.snapshot.hasErrors
      hasSemanticErrorsFromOldState := old.snapshot.hasSemanticErrors }
  | none => { s with buildInfoEmitPending := s.options.isIncremental }

/-- The file is new, differs from the file the old program had, refers to other files or
to one that was deleted. -/
def fileChanged (old : Program) (file : Path) : Bool :=
  let newReferences := (program.getReferencedFiles file).getD ∅
  match old.snapshot.fileInfos.lookup file with
  | none => true
  | some oldFileInfo =>
    if oldFileInfo.version != program.version file ||
        oldFileInfo.affectsGlobalScope != program.affectsGlobalScope file ||
        oldFileInfo.impliedNodeFormat != program.impliedNodeFormat file then true
    else if newReferences ≠ (old.snapshot.referencedMap.lookup file).getD ∅ then true
    else decide (∃ refPath ∈ newReferences,
      program.getSourceFileByPath refPath = none ∧ refPath ∈ old.snapshot.fileInfos)

def copyDiagnostics (rules : CopyRules) (old : Program) (s : Snapshot) (file : Path) : Snapshot :=
  let s := match old.snapshot.emitDiagnosticsPerFile.lookup file with
    | some diagnostics =>
      { s with
        emitDiagnosticsPerFile :=
          s.emitDiagnosticsPerFile.insert file (repopulateDiagnosticsOfFile repopulate diagnostics file) }
    | none => s
  if rules.canCopySemanticDiagnostics &&
      (!program.isDeclarationFile file || rules.copyDeclarationFileDiagnostics) &&
      (!program.isSourceFileDefaultLibrary file || rules.copyLibFileDiagnostics) then
    match old.snapshot.semanticDiagnosticsPerFile.lookup file with
    | some diagnostics =>
      { s with
        semanticDiagnosticsPerFile :=
          s.semanticDiagnosticsPerFile.insert file (repopulateDiagnosticsOfFile repopulate diagnostics file) }
    | none => s
  else s

def copyEmitSignature (rules : CopyRules) (old : Program) (s : Snapshot) (file : Path) : Snapshot :=
  if rules.canCopyEmitSignatures then
    match old.snapshot.emitSignatures.lookup file with
    | some signature =>
      { s with
        emitSignatures := s.emitSignatures.insert file
          (signature.getNewEmitSignature old.snapshot.options s.options) }
    | none => s
  else s

def storeReferences (s : Snapshot) (file : Path) : Snapshot :=
  match program.getReferencedFiles file with
  | some newReferences => { s with referencedMap := s.referencedMap.insert file newReferences }
  | none => s

def storeFileInfo (s : Snapshot) (file : Path) (signature : String) : Snapshot :=
  { s with
    fileInfos := s.fileInfos.insert file
      ⟨program.version file, signature, program.affectsGlobalScope file, program.impliedNodeFormat file⟩ }

def computeProgramFileChange (rules : CopyRules) (old : Program) (s : Snapshot) (file : Path) : Snapshot :=
  let s := storeReferences program s file
  let s := if fileChanged program old file then s.addFileToChangeSet file else s
  let s := if file ∉ s.changedFilesSet then copyDiagnostics repopulate program rules old s file else s
  let s := copyEmitSignature rules old s file
  storeFileInfo program s file (((old.snapshot.fileInfos.lookup file).map FileInfo.signature).getD "")

def computeFirstFileChange (s : Snapshot) (file : Path) : Snapshot :=
  let s := storeReferences program s file
  let s := s.addFileToAffectedFilesPendingEmit file (getFileEmitKind s.options)
  storeFileInfo program s file (program.version file)

def computeProgramFileChanges (s : Snapshot) : Option Program → Snapshot
  | some old =>
    program.getSourceFiles.foldl
      (computeProgramFileChange repopulate program (copyRules effects program s old) old) s
  | none => program.getSourceFiles.foldl (computeFirstFileChange program) s

/-- Only the first deleted file that the table of the old files lists is looked at. -/
def handleFileDelete (old : Program) (oldFiles : List Path) (s : Snapshot) : Bool × Snapshot :=
  match oldFiles.find? fun filePath => filePath ∉ s.fileInfos with
  | none => (false, s)
  | some filePath =>
    if ((old.snapshot.fileInfos.lookup filePath).map FileInfo.affectsGlobalScope).getD false then
      let (files, s) := s.getAllFilesExcludingDefaultLibraryFile program none
      (true, files.foldl Snapshot.addFileToChangeSet s)
    else (false, { s with buildInfoEmitPending := true })

def handlePendingEmit (old : Program) (globalFileRemoved : Bool) (s : Snapshot) : Snapshot :=
  if globalFileRemoved then s
  else
    let pendingEmitKind :=
      if effects.compilerOptionsAffectEmit old.snapshot.options s.options then getFileEmitKind s.options
      else getPendingEmitKindWithOptions s.options old.snapshot.options
    if pendingEmitKind ≠ fileEmitKindNone then
      { program.getSourceFiles.foldl (fun (s : Snapshot) file =>
          if file ∉ s.changedFilesSet then s.addFileToAffectedFilesPendingEmit file pendingEmitKind else s) s with
        buildInfoEmitPending := true }
    else s

def handlePendingCheck (old : Program) (s : Snapshot) : Snapshot :=
  if s.semanticDiagnosticsPerFile.keys.card ≠ program.getSourceFiles.length ∧
      old.snapshot.checkPending ≠ s.checkPending then
    { s with buildInfoEmitPending := true }
  else s

/-- The snapshot of a program. `samePointer` says that the old program is about the very
same program of the compiler, and `oldFiles` is the order in which the table of its files
lists them. -/
def programToSnapshot (oldProgram : Option Program) (samePointer : Bool) (oldFiles : List Path) : Snapshot :=
  let fresh : Snapshot := { options := program.options, checkPending := program.options.noCheck }
  match oldProgram with
  | some old =>
    if samePointer then old.snapshot
    else if fresh.canUseIncrementalState then
      let s := computeProgramFileChanges effects repopulate program (reuseFromOldProgram fresh (some old)) (some old)
      let (globalFileRemoved, s) := handleFileDelete program old oldFiles s
      handlePendingCheck program old (handlePendingEmit effects program old globalFileRemoved s)
    else fresh
  | none =>
    if fresh.canUseIncrementalState then
      computeProgramFileChanges effects repopulate program (reuseFromOldProgram fresh none) none
    else fresh

end TypeScriptRs.Incremental
