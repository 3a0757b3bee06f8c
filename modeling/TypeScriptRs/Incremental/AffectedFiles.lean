import TypeScriptRs.Incremental.Snapshot

/-! Collecting the files that a set of changed files affects. -/
namespace TypeScriptRs.Incremental
open Machine

abbrev DtsMayChange := HashMap Path FileEmitKind

/-- The orders in which the hash tables that one collection goes through list their keys. -/
structure Enumeration (s : Snapshot) where
  changed : List Path
  referencedBy : Path → List Path
  affected : Finset Path → List Path
  changed_nodup : changed.Nodup
  mem_changed : ∀ p, p ∈ changed ↔ p ∈ s.changedFilesSet
  referencedBy_nodup : ∀ p, (referencedBy p).Nodup
  mem_referencedBy : ∀ p q, q ∈ referencedBy p ↔ q ∈ s.referencedBy p
  affected_nodup : ∀ files, (affected files).Nodup
  mem_affected : ∀ files f, f ∈ affected files ↔ f ∈ files

structure AffectedFilesHandler where
  snapshot : Snapshot
  hasAllFilesExcludingDefaultLibraryFile : Bool
  updatedSignatures : HashMap Path String
  dtsMayChange : List DtsMayChange
  filesToRemoveDiagnostics : Finset Path
  cleanedDiagnosticsOfLibFiles : Bool
  seenFileAndReferences : HashMap Path Bool

namespace AffectedFilesHandler

def start (s : Snapshot) : AffectedFilesHandler := ⟨s, false, ∅, [], ∅, false, ∅⟩

variable (h : AffectedFilesHandler)

def removeSemanticDiagnosticsOf (path : Path) : AffectedFilesHandler :=
  { h with filesToRemoveDiagnostics := insert path h.filesToRemoveDiagnostics }

/-- The library files that are checked lose their diagnostics, once. -/
def removeDiagnosticsOfLibraryFiles (program : CompilerProgram) : AffectedFilesHandler :=
  if h.cleanedDiagnosticsOfLibFiles then h
  else program.checkedLibraryFiles.foldl removeSemanticDiagnosticsOf
    { h with cleanedDiagnosticsOfLibFiles := true }

def isChangedSignature (path : Path) : Outcome Bool :=
  match h.updatedSignatures.lookup path, h.snapshot.fileInfos.lookup path with
  | some newSignature, some oldInfo => .ok (newSignature != oldInfo.signature)
  | _, _ => .panic "called `Option::unwrap()` on a `None` value"

/-- The signature that a file gets: the hash of its declarations, or its version. -/
def newSignature (program : CompilerProgram) (file : Path) (info : FileInfo) (useFileVersionAsSignature : Bool) :
    String :=
  let computed :=
    if !program.isDeclarationFile file && !useFileVersionAsSignature then program.computeDtsSignature file
    else ""
  if computed = "" then info.version else computed

/-- Update the signature of a file that has not been updated yet, and say whether it
changed. -/
def updateShapeSignature (program : CompilerProgram) (file : Path) (useFileVersionAsSignature : Bool) :
    Outcome (Bool × AffectedFilesHandler) :=
  match h.updatedSignatures.lookup file with
  | some _ => .ok (false, h)
  | none =>
    match h.snapshot.fileInfos.lookup file with
    | none => .panic "called `Option::unwrap()` on a `None` value"
    | some info =>
      let signature := newSignature program file info useFileVersionAsSignature
      .ok (signature != info.signature, { h with updatedSignatures := h.updatedSignatures.insert file signature })

end AffectedFilesHandler

open AffectedFilesHandler

variable (program : CompilerProgram) {s : Snapshot} (order : Enumeration s)

/-- The loop over the files that refer to a changed file. The back of the queue is the
head of the list; the files found are the values of the map of seen paths. -/
def affectedLoop : Nat → List Path → Finset Path → Finset Path → AffectedFilesHandler →
    Outcome (Finset Path × AffectedFilesHandler)
  | 0, _, _, _, _ => .err "out of fuel"
  | _ + 1, [], _, found, h => .ok (found, h)
  | fuel + 1, currentPath :: queue, seen, found, h =>
    if currentPath ∈ seen then affectedLoop fuel queue seen found h
    else
      let seen := insert currentPath seen
      match program.getSourceFileByPath currentPath with
      | none => affectedLoop fuel queue seen found h
      | some currentFile => do
        let (changed, h) ← h.updateShapeSignature program currentFile false
        let queue := if changed then (order.referencedBy currentFile).reverse ++ queue else queue
        affectedLoop fuel queue seen (insert currentFile found) h

/-- Every path of a queue is a key of the reference map, and each key queues its
referencing files at most once. -/
def affectedFuel (s : Snapshot) : Nat :=
  s.referencedMap.keys.card * (s.referencedMap.keys.card + 1) + 1

/-- A change of the global scope is only noted: the list of all files is cached, but its
value is not used. -/
def noteGlobalScope (file : Path) (h : AffectedFilesHandler) : AffectedFilesHandler :=
  if ((h.snapshot.fileInfos.lookup file).map FileInfo.affectsGlobalScope).getD false then
    { h with
      hasAllFilesExcludingDefaultLibraryFile := true
      snapshot := (h.snapshot.getAllFilesExcludingDefaultLibraryFile program (some file)).2 }
  else h

def getFilesAffectedBy (path : Path) (h : AffectedFilesHandler) :
    Outcome (Finset Path × AffectedFilesHandler) :=
  match program.getSourceFileByPath path with
  | none => .ok (∅, h)
  | some file => do
    let (changed, h) ← h.updateShapeSignature program file false
    if !changed then pure ({file}, h)
    else
      let h := noteGlobalScope program file h
      if s.options.isolatedModules then pure ({file}, h)
      else
        affectedLoop program order (affectedFuel s) (order.referencedBy file).reverse {file} {file} h

/-- The files that refer to a file, each once, as `for_each_file_referenced_by` lists
them when it is told not to go further. -/
def filesReferencedBy (file : Path) : List Path :=
  ((order.referencedBy file).reverse.foldl (fun (state : Finset Path × List Path) currentPath =>
    if currentPath ∈ state.1 then state else (insert currentPath state.1, state.2 ++ [currentPath]))
    ({file}, [])).2

def dtsEmitKind (o : CompilerOptions) : FileEmitKind :=
  if o.declarationMap then fileEmitKindAllDts else fileEmitKindDts

def handleDtsMayChangeOf (path : Path) (invalidateJsFiles : Bool) (c : DtsMayChange × AffectedFilesHandler) :
    Outcome (DtsMayChange × AffectedFilesHandler) :=
  if path ∈ s.changedFilesSet then .ok c
  else
    match program.getSourceFileByPath path with
    | none => .ok c
    | some file => do
      let (_, h) ← (c.2.removeSemanticDiagnosticsOf path).updateShapeSignature program file true
      if invalidateJsFiles then pure (c.1.insert path (getFileEmitKind s.options), h)
      else if s.options.getEmitDeclarations then pure (c.1.insert path (dtsEmitKind s.options), h)
      else pure (c.1, h)

def handleDtsMayChangeOfGlobalScope (filePath : Path) (invalidateJsFiles : Bool)
    (c : DtsMayChange × AffectedFilesHandler) : Outcome (Bool × (DtsMayChange × AffectedFilesHandler)) :=
  if ((c.2.snapshot.fileInfos.lookup filePath).map FileInfo.affectsGlobalScope).getD false then do
    let (files, snapshot) := c.2.snapshot.getAllFilesExcludingDefaultLibraryFile program none
    let (change, h) ← files.foldlM (fun c file => handleDtsMayChangeOf (s := s) program file invalidateJsFiles c)
      (c.1, { c.2 with snapshot := snapshot })
    pure (true, (change, h.removeDiagnosticsOfLibraryFiles program))
  else pure (false, c)

def handleDtsMayChangeOfFileAndReferences (invalidateJsFiles : Bool) : Nat → Path →
    DtsMayChange × AffectedFilesHandler → Outcome (Bool × (DtsMayChange × AffectedFilesHandler))
  | 0, _, _ => .err "out of fuel"
  | fuel + 1, filePath, c =>
    let existing := c.2.seenFileAndReferences.lookup filePath
    if existing = some true ∨ (existing = some false ∧ invalidateJsFiles = false) then .ok (false, c)
    else do
      let seen := c.2.seenFileAndReferences.insert filePath invalidateJsFiles
      let c := (c.1, { c.2 with seenFileAndReferences := seen })
      let (global, c) ← handleDtsMayChangeOfGlobalScope (s := s) program filePath invalidateJsFiles c
      if global then pure (true, c)
      else
        let c ← handleDtsMayChangeOf (s := s) program filePath invalidateJsFiles c
        untilTrue (handleDtsMayChangeOfFileAndReferences invalidateJsFiles fuel) (order.referencedBy filePath) c

/-- Without the JavaScript of other modules to look at, only the diagnostics and the
declarations of the referencing files are handled. -/
def handleIsolatedReferences (affectedFile : Path) (c : DtsMayChange × AffectedFilesHandler) :
    Outcome (Bool × (DtsMayChange × AffectedFilesHandler)) :=
  untilTrue (fun currentPath c => do
    let (global, c) ← handleDtsMayChangeOfGlobalScope (s := s) program currentPath false c
    if global then pure (true, c)
    else
      let c ← handleDtsMayChangeOf (s := s) program currentPath false c
      let _ ← c.2.isChangedSignature currentPath
      pure (false, c)) (filesReferencedBy order affectedFile) c

/-- The files that refer to a changed file, and the files that refer to these. -/
def handleReferencingFiles (affectedFile : Path) (c : DtsMayChange × AffectedFilesHandler) :
    Outcome (Bool × (DtsMayChange × AffectedFilesHandler)) :=
  untilTrue (fun fileReferencingChangedFile c => do
    let (global, c) ←
      handleDtsMayChangeOfGlobalScope (s := s) program fileReferencingChangedFile
        (program.exportsConstEnum affectedFile) c
    if global then pure (true, c)
    else
      untilTrue (handleDtsMayChangeOfFileAndReferences program order (program.exportsConstEnum affectedFile)
        (s.referencedMap.keys.card + 1)) (order.referencedBy fileReferencingChangedFile) c)
    (order.referencedBy affectedFile) c

def handleDtsMayChangeOfAffectedFile (affectedFile : Path) (c : DtsMayChange × AffectedFilesHandler) :
    Outcome (DtsMayChange × AffectedFilesHandler) := do
  let h := c.2.removeSemanticDiagnosticsOf affectedFile
  if h.hasAllFilesExcludingDefaultLibraryFile then
    let (_, h) ← (h.removeDiagnosticsOfLibraryFiles program).updateShapeSignature program affectedFile false
    pure (c.1, h)
  else if s.options.assumeChangesOnlyAffectDirectDependencies then pure (c.1, h)
  else if affectedFile ∉ s.changedFilesSet then pure (c.1, h)
  else
    let changed ← h.isChangedSignature affectedFile
    if !changed then pure (c.1, h)
    else
      let (stopped, c) ←
        if s.options.isolatedModules then handleIsolatedReferences program order affectedFile (c.1, h)
        else pure (false, (c.1, h))
      if stopped then pure c
      else
        let (_, c) ← handleReferencingFiles program order affectedFile c
        pure c

theorem addFileToAffectedFilesPendingEmit_comm (t : Snapshot) (p : Path) (k : FileEmitKind) (q : Path) (l : FileEmitKind) :
    (t.addFileToAffectedFilesPendingEmit p k).addFileToAffectedFilesPendingEmit q l =
      (t.addFileToAffectedFilesPendingEmit q l).addFileToAffectedFilesPendingEmit p k := by
  unfold Snapshot.addFileToAffectedFilesPendingEmit
  congr 1
  · apply Finmap.ext_lookup
    intro r
    split <;> split <;> simp only [HashMap.lookup_erase_if]
    split <;> split <;> rfl
  apply Finmap.ext_lookup
  intro r
  simp only [HashMap.lookup_insert_if]
  by_cases same : p = q
  · subst same
    by_cases here : r = p
    · simp [here, BitVec.or_assoc, BitVec.or_comm k l]
    · simp [here]
  · by_cases atP : r = p
    · simp [atP, same]
    · simp [atP, Ne.symm same]

def updateSnapshot (h : AffectedFilesHandler) : Snapshot :=
  let t := { h.snapshot with
    fileInfos := h.snapshot.fileInfos.alterAll fun path info =>
      match h.updatedSignatures.lookup path with
      | some signature => some { info with signature := signature }
      | none => some info
    semanticDiagnosticsPerFile := h.snapshot.semanticDiagnosticsPerFile.alterAll fun path diagnostics =>
      if path ∈ h.filesToRemoveDiagnostics then none else some diagnostics }
  let t := h.dtsMayChange.foldl (fun t (change : DtsMayChange) =>
    change.foldl Snapshot.addFileToAffectedFilesPendingEmit addFileToAffectedFilesPendingEmit_comm t) t
  { t with changedFilesSet := ∅, buildInfoEmitPending := true }

/-- The files that the changed files affect, as the keys of the result map. -/
def findAffectedFiles : Outcome (Finset Path × AffectedFilesHandler) :=
  order.changed.foldlM (fun (c : Finset Path × AffectedFilesHandler) file => do
    let (affected, h) ← getFilesAffectedBy program order file c.2
    pure (c.1 ∪ affected, h)) (∅, AffectedFilesHandler.start s)

def handleAffectedFile (h : AffectedFilesHandler) (file : Path) : Outcome AffectedFilesHandler := do
  let (change, h) ← handleDtsMayChangeOfAffectedFile program order file
    (Finmap.singleton file (getFileEmitKind s.options), h)
  pure { h with dtsMayChange := h.dtsMayChange ++ [change] }

def collectAllAffectedFiles : Outcome Snapshot :=
  if s.changedFilesSet = ∅ then .ok s
  else do
    let (result, h) ← findAffectedFiles program order
    let h ← (order.affected result).foldlM (handleAffectedFile program order) h
    pure (updateSnapshot h)

end TypeScriptRs.Incremental
