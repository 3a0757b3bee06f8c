import TypeScriptRs.Incremental.Program
import TypeScriptRs.Incremental.Soundness

/-! The keys of the cache of semantic diagnostics are files of the program, in whole runs. -/
namespace TypeScriptRs.Incremental
open Machine List

section
variable {program : CompilerProgram} {s t : Snapshot}

def Snapshot.tables (s : Snapshot) :
    HashMap Path CachedDiagnostics × HashMap Path (Finset Path) × HashMap Path FileInfo × Option (List Path) :=
  (s.semanticDiagnosticsPerFile, s.referencedMap, s.fileInfos, s.allFilesExcludingDefaultLibraryFile)

@[simp] theorem tables_addFileToChangeSet (s : Snapshot) (p : Path) : (s.addFileToChangeSet p).tables = s.tables := rfl

@[simp] theorem tables_addFileToAffectedFilesPendingEmit (s : Snapshot) (p : Path) (k : FileEmitKind) :
    (s.addFileToAffectedFilesPendingEmit p k).tables = s.tables := rfl

theorem tables_copyEmitSignature (rules : CopyRules) (old : Program) (s : Snapshot) (file : Path) :
    (copyEmitSignature rules old s file).tables = s.tables := by
  unfold copyEmitSignature
  split
  · split <;> rfl
  · rfl

/-- A snapshot in the making: the files in `done` have been looked at. -/
structure Prepared (program : CompilerProgram) (done : Path → Prop) (s : Snapshot) : Prop where
  cached : ∀ f ∈ s.semanticDiagnosticsPerFile, f ∈ program.getSourceFiles
  referencing : ∀ p ∈ s.referencedMap, p ∈ program.getSourceFiles
  infos : ∀ f, done f → f ∈ s.fileInfos
  allFiles : ∀ files, s.allFilesExcludingDefaultLibraryFile = some files → ∀ f, f ∈ files ↔ f ∈ program.ownFiles

variable {done : Path → Prop} {file : Path}

section
variable (prepared : Prepared program done s)
include prepared

theorem Prepared.same (same : t.tables = s.tables) : Prepared program done t := by
  simp only [Snapshot.tables, Prod.mk.injEq] at same
  obtain ⟨semantic, references, infos, files⟩ := same
  refine ⟨?_, ?_, ?_, ?_⟩
  · rw [semantic]
    exact prepared.cached
  · rw [references]
    exact prepared.referencing
  · rw [infos]
    exact prepared.infos
  · rw [files]
    exact prepared.allFiles

theorem Prepared.references (member : file ∈ program.getSourceFiles) :
    Prepared program done (storeReferences program s file) := by
  unfold storeReferences
  split
  · refine ⟨prepared.cached, ?_, prepared.infos, prepared.allFiles⟩
    intro p listed
    rcases Finmap.mem_insert.mp listed with rfl | old
    · exact member
    · exact prepared.referencing p old
  · exact prepared

theorem Prepared.info (signature : String) :
    Prepared program (fun f => done f ∨ f = file) (storeFileInfo program s file signature) where
  cached := prepared.cached
  referencing := prepared.referencing
  infos f known := by
    refine Finmap.mem_insert.mpr ?_
    rcases known with old | rfl
    · exact .inr (prepared.infos f old)
    · exact .inl rfl
  allFiles := prepared.allFiles

theorem Prepared.copied (member : file ∈ program.getSourceFiles)
    (repopulate : RepopulateDiagnosticMessageChain) (rules : CopyRules) (old : Program) :
    Prepared program done (copyDiagnostics repopulate program rules old s file) := by
  have insert : ∀ (u : Snapshot) diagnostics, u.tables = { s with
      semanticDiagnosticsPerFile := s.semanticDiagnosticsPerFile.insert file diagnostics }.tables →
      Prepared program done u := by
    intro u diagnostics same
    refine Prepared.same (s := { s with
      semanticDiagnosticsPerFile := s.semanticDiagnosticsPerFile.insert file diagnostics })
      ⟨?_, prepared.referencing, prepared.infos, prepared.allFiles⟩ same
    intro f listed
    rcases Finmap.mem_insert.mp listed with rfl | old
    · exact member
    · exact prepared.cached f old
  unfold copyDiagnostics
  -- the emit diagnostics come first and are in no table that names the files
  cases old.snapshot.emitDiagnosticsPerFile.lookup file <;>
  · dsimp only
    split
    · split
      · exact insert _ _ rfl
      · exact prepared.same rfl
    · exact prepared.same rfl

theorem Prepared.change (member : file ∈ program.getSourceFiles)
    (repopulate : RepopulateDiagnosticMessageChain) (rules : CopyRules) (old : Program) :
    Prepared program (fun f => done f ∨ f = file)
      (computeProgramFileChange repopulate program rules old s file) := by
  unfold computeProgramFileChange
  extract_lets stored marked copied
  have atStored : Prepared program done stored := prepared.references member
  have atMarked : Prepared program done marked := by
    unfold marked
    split
    · exact atStored.same rfl
    · exact atStored
  have atCopied : Prepared program done copied := by
    unfold copied
    split
    · exact atMarked.copied member _ _ _
    · exact atMarked
  exact (atCopied.same (tables_copyEmitSignature _ _ _ _)).info _

theorem Prepared.firstChange (member : file ∈ program.getSourceFiles) :
    Prepared program (fun f => done f ∨ f = file) (computeFirstFileChange program s file) :=
  ((prepared.references member).same (tables_addFileToAffectedFilesPendingEmit _ _ _)).info _
end

theorem Prepared.foldl {turn : Snapshot → Path → Snapshot} (files : List Path) (inside : ∀ f ∈ files, f ∈ program.getSourceFiles)
    (each : ∀ done s f, f ∈ program.getSourceFiles → Prepared program done s →
      Prepared program (fun g => done g ∨ g = f) (turn s f)) :
    ∀ done s, Prepared program done s → Prepared program (fun f => done f ∨ f ∈ files) (files.foldl turn s) := by
  induction files with
  | nil =>
    intro done s prepared
    simpa using prepared
  | cons f files ih =>
    intro done s prepared
    have next := ih (fun g member => inside g (mem_cons_of_mem f member)) _ _
      (each done s f (inside f mem_cons_self) prepared)
    simpa only [mem_cons, or_assoc, foldl_cons] using next

theorem Prepared.changes (prepared : Prepared program (fun _ => False) s) (effects : OptionEffects)
    (repopulate : RepopulateDiagnosticMessageChain) (old : Option Program) :
    Prepared program (· ∈ program.getSourceFiles) (computeProgramFileChanges effects repopulate program s old) := by
  cases old with
  | some old =>
    unfold computeProgramFileChanges
    simpa using Prepared.foldl program.getSourceFiles (fun _ member => member)
      (fun done s f member now => now.change member repopulate _ old) _ _ prepared
  | none =>
    unfold computeProgramFileChanges
    simpa using Prepared.foldl program.getSourceFiles (fun _ member => member)
      (fun done s f member now => now.firstChange member) _ _ prepared

theorem Prepared.deleted (prepared : Prepared program done s) (old : Program) (oldFiles : List Path) :
    Prepared program done (handleFileDelete program old oldFiles s).2 := by
  unfold handleFileDelete
  split
  · exact prepared
  split
  · have same : SameSnapshot program s s := ⟨_, rfl, prepared.allFiles⟩
    obtain ⟨-, cache, equal, listed⟩ := same.allFiles none (fun f here => by cases here)
    refine List.foldlRecOn _ _ ?_ fun t now f _ => now.same (tables_addFileToChangeSet t f)
    rw [equal]
    exact ⟨prepared.cached, prepared.referencing, prepared.infos, listed⟩
  · exact prepared.same rfl

theorem Prepared.pending (prepared : Prepared program done s) (effects : OptionEffects) (old : Program)
    (globalFileRemoved : Bool) : Prepared program done (handlePendingEmit effects program old globalFileRemoved s) := by
  have added : ∀ kind : FileEmitKind, Prepared program done (program.getSourceFiles.foldl (fun (s : Snapshot) file =>
      if file ∉ s.changedFilesSet then s.addFileToAffectedFilesPendingEmit file kind else s) s) := by
    intro kind
    refine List.foldlRecOn _ _ prepared fun t now f _ => ?_
    split
    · exact now.same (tables_addFileToAffectedFilesPendingEmit _ _ _)
    · exact now
  unfold handlePendingEmit
  split
  · exact prepared
  · extract_lets kind
    split
    · exact (added kind).same rfl
    · exact prepared

/-- What holds of the snapshot of a program between two operations: only files of the
program are cached, and as long as there are changed files the snapshot can be brought up
to date. -/
structure Cached (program : CompilerProgram) (s : Snapshot) : Prop where
  files : ∀ f ∈ s.semanticDiagnosticsPerFile, f ∈ program.getSourceFiles
  consistent : s.changedFilesSet ≠ ∅ → Consistent program s

theorem Prepared.finish (prepared : Prepared program (· ∈ program.getSourceFiles) s) : Cached program s :=
  ⟨prepared.cached, fun _ => ⟨prepared.infos, prepared.referencing, prepared.allFiles⟩⟩

theorem Cached.of_same (cached : Cached program s) (tables : t.tables = s.tables)
    (changed : t.changedFilesSet = s.changedFilesSet) : Cached program t := by
  simp only [Snapshot.tables, Prod.mk.injEq] at tables
  obtain ⟨semantic, references, infos, files⟩ := tables
  refine ⟨fun f member => cached.files f (semantic ▸ member), fun changes => ?_⟩
  have before := cached.consistent (changed ▸ changes)
  exact ⟨fun f file => infos ▸ before.infos f file, fun p listed => before.referencing p (references ▸ listed),
    fun list found => before.allFiles list (files ▸ found)⟩

theorem Prepared.start (empty : s.tables = (∅, ∅, ∅, none)) : Prepared program (fun _ => False) s := by
  refine Prepared.same (s := {}) ⟨?_, ?_, fun f never => never.elim, fun files found => by cases found⟩ empty
  · intro f member
    exact absurd member Finmap.notMem_empty
  · intro f member
    exact absurd member Finmap.notMem_empty

theorem programToSnapshot_cached (effects : OptionEffects) (repopulate : RepopulateDiagnosticMessageChain)
    (oldProgram : Option Program) (samePointer : Bool) (oldFiles : List Path)
    (same : samePointer = true → ∀ old, oldProgram = some old → Cached program old.snapshot) :
    Cached program (programToSnapshot effects repopulate program oldProgram samePointer oldFiles) := by
  unfold programToSnapshot
  cases oldProgram with
  | some old =>
    dsimp only
    split
    · rename_i equal
      exact same equal old rfl
    split
    · have fresh : Prepared program (fun _ => False) (reuseFromOldProgram
          { options := program.options, checkPending := program.options.noCheck } (some old)) := Prepared.start rfl
      have changes := fresh.changes effects repopulate (some old)
      have checked : ∀ u, Prepared program (· ∈ program.getSourceFiles) u →
          Cached program (handlePendingCheck program old u) := by
        intro u final
        unfold handlePendingCheck
        split
        · exact final.finish.of_same rfl rfl
        · exact final.finish
      exact checked _ ((changes.deleted old oldFiles).pending effects old _)
    · exact ⟨(Prepared.start rfl : Prepared program (fun _ => False) _).cached, fun changes => absurd rfl changes⟩
  | none =>
    dsimp only
    split
    · exact ((Prepared.start rfl).changes effects repopulate none).finish
    · exact ⟨(Prepared.start rfl : Prepared program (fun _ => False) _).cached, fun changes => absurd rfl changes⟩

theorem Cached.complete_iff (cached : Cached program s) : s.semanticDiagnosticsPerFile.keys.card = program.getSourceFiles.length ↔
      ∀ f ∈ program.getSourceFiles, f ∈ s.semanticDiagnosticsPerFile := by
  have inside : s.semanticDiagnosticsPerFile.keys ⊆ program.getSourceFiles.toFinset := by
    intro f member
    exact mem_toFinset.mpr (cached.files f (Finmap.mem_keys.mp member))
  rw [← toFinset_card_of_nodup program.distinct]
  constructor
  · intro equal f file
    rw [← Finmap.mem_keys, Finset.eq_of_subset_of_card_le inside equal.ge]
    exact mem_toFinset.mpr file
  · intro all
    refine congrArg Finset.card (inside.antisymm fun f member => ?_)
    exact Finmap.mem_keys.mpr (all f (mem_toFinset.mp member))

theorem Cached.collect (cached : Cached program s) (order : Enumeration s) :
    ∃ t, collectAllAffectedFiles program order = .ok t ∧ Cached program t := by
  by_cases changes : s.changedFilesSet = ∅
  · exact ⟨s, if_pos changes, cached⟩
  obtain ⟨T, halted, t, run, -, collected⟩ :=
    collectAllAffectedFiles_spec order (cached.consistent changes) changes
  refine ⟨t, run, fun f member => ?_, fun left => absurd collected.changedFiles left⟩
  rw [← Finmap.lookup_isSome, collected.semanticDiagnostics] at member
  split at member
  · cases member
  · exact cached.files f (Finmap.lookup_isSome.mp member)
end

section
variable {program : CompilerProgram} {s : Snapshot} (compiler : Compiler) {file : Option Path}

def requestedFiles (program : CompilerProgram) : Option Path → List Path
  | some file => [file]
  | none => program.getSourceFiles

theorem mem_commitSemanticDiagnostics (files : List Path) (f : Path) :
    f ∈ (commitSemanticDiagnostics program compiler s files).semanticDiagnosticsPerFile ↔
      f ∈ files ∨ f ∈ s.semanticDiagnosticsPerFile := by
  have answered : f ∈ HashMap.ofKeys (compiler.getSemanticDiagnosticsWithoutNoEmitFiltering files).keys
      (fun file => ((compiler.getSemanticDiagnosticsWithoutNoEmitFiltering files).lookup file).map
        (⟨·, []⟩ : _ → CachedDiagnostics)) ↔ f ∈ files := by
    rw [← compiler.oneEntryPerFile files f, ← Finmap.lookup_isSome, ← Finmap.lookup_isSome, HashMap.lookup_ofKeys]
    split
    · rw [Option.isSome_map]
    · rename_i absent
      rw [Finmap.mem_keys, ← Finmap.lookup_eq_none] at absent
      simp [absent]
  exact Finmap.mem_union.trans (or_congr_left answered)

theorem Cached.commit (cached : Cached program s) {files : List Path} (inside : ∀ f ∈ files, f ∈ program.getSourceFiles) :
    Cached program (commitSemanticDiagnostics program compiler s files) where
  files f member := by
    rcases (mem_commitSemanticDiagnostics compiler files f).mp member with new | old
    · exact inside f new
    · exact cached.files f old
  consistent changes :=
    have before := cached.consistent changes
    ⟨before.infos, before.referencing, before.allFiles⟩

section
variable (cached : Cached program s) (inside : ∀ f ∈ requestedFiles program file, f ∈ program.getSourceFiles)
include cached inside

theorem Cached.cache : Cached program (cacheSemanticDiagnostics program compiler s file) ∧ ∀ f ∈ requestedFiles program file,
        f ∈ (cacheSemanticDiagnostics program compiler s file).semanticDiagnosticsPerFile := by
  cases file with
  | some file =>
    simp only [cacheSemanticDiagnostics]
    split
    · rename_i known
      refine ⟨cached, fun f member => ?_⟩
      cases mem_singleton.mp member
      exact known
    · exact ⟨cached.commit compiler inside, fun f member =>
        (mem_commitSemanticDiagnostics compiler _ f).mpr (.inl member)⟩
  | none =>
    refine ⟨cached.commit compiler fun f member => mem_of_mem_filter member, fun f member => ?_⟩
    refine (mem_commitSemanticDiagnostics compiler _ f).mpr ?_
    by_cases known : f ∈ s.semanticDiagnosticsPerFile
    · exact .inr known
    · exact .inl (mem_filter.mpr ⟨member, by simpa using known⟩)

theorem Cached.collectSemantic :
    ∃ t, collectSemanticDiagnosticsOfAffectedFiles program compiler s file = .ok t ∧ Cached program t ∧
      ∀ f ∈ requestedFiles program file, f ∈ t.semanticDiagnosticsPerFile := by
  unfold collectSemanticDiagnosticsOfAffectedFiles
  split
  · obtain ⟨t, run, now⟩ := cached.collect (compiler.enumeration s)
    simp only [run, Outcome.monad_bind, Outcome.bind_ok, Outcome.monad_pure]
    split
    · rename_i complete
      exact ⟨t, rfl, now, fun f member => now.complete_iff.mp complete f (inside f member)⟩
    · exact ⟨_, rfl, now.cache compiler inside⟩
  · exact ⟨_, rfl, cached.cache compiler inside⟩
end

theorem getSemanticDiagnosticsOfFile_ok {f : Path} (known : f ∈ s.semanticDiagnosticsPerFile) :
    ∃ diagnostics, getSemanticDiagnosticsOfFile compiler s f = .ok diagnostics := by
  obtain ⟨diagnostics, found⟩ := Finmap.mem_iff.mp known
  exact ⟨_, by rw [getSemanticDiagnosticsOfFile, found]⟩

theorem mapM_getSemanticDiagnosticsOfFile (files : List Path) (known : ∀ f ∈ files, f ∈ s.semanticDiagnosticsPerFile) :
    ∃ diagnostics, files.mapM (getSemanticDiagnosticsOfFile compiler s) = .ok diagnostics := by
  induction files with
  | nil => exact ⟨[], rfl⟩
  | cons f files ih =>
    obtain ⟨first, ofFile⟩ := getSemanticDiagnosticsOfFile_ok compiler (known f mem_cons_self)
    obtain ⟨rest, ofRest⟩ := ih fun g member => known g (mem_cons_of_mem f member)
    exact ⟨first :: rest, by rw [mapM_cons, ofFile, ofRest]; rfl⟩

theorem Cached.semantic (cached : Cached program s) (inside : ∀ f ∈ requestedFiles program file, f ∈ program.getSourceFiles) :
    ∃ diagnostics t, getSemanticDiagnostics program compiler s file = .ok (diagnostics, t) ∧ Cached program t := by
  unfold getSemanticDiagnostics
  split
  · exact ⟨[], s, rfl, cached⟩
  obtain ⟨t, run, now, known⟩ := cached.collectSemantic compiler inside
  simp only [run, Outcome.monad_bind, Outcome.bind_ok]
  cases file with
  | some file =>
    obtain ⟨diagnostics, ofFile⟩ := getSemanticDiagnosticsOfFile_ok compiler (known file (by simp [requestedFiles]))
    exact ⟨diagnostics, t, by simp only [ofFile, Outcome.bind_ok, Outcome.monad_pure], now⟩
  | none =>
    obtain ⟨diagnostics, ofFiles⟩ := mapM_getSemanticDiagnosticsOfFile compiler program.getSourceFiles known
    exact ⟨diagnostics.flatten, t, by simp only [ofFiles, Outcome.bind_ok, Outcome.monad_pure], now⟩

/-- The message of the abort when diagnostics that were asked for are missing. -/
def missingDiagnostics : String := "After handling all the affected files, there shouldnt be more changes"

/-- The operation leaves a cached snapshot and does not abort for missing diagnostics. -/
def KeepsCache (program : CompilerProgram) {α : Type} : Outcome (α × Snapshot) → Prop :=
  Outcome.Satisfies missingDiagnostics fun result => Cached program result.2

theorem Cached.keeps_semantic (cached : Cached program s)
    (inside : ∀ f ∈ requestedFiles program file, f ∈ program.getSourceFiles) :
    KeepsCache program (getSemanticDiagnostics program compiler s file) := by
  obtain ⟨diagnostics, t, run, now⟩ := cached.semantic compiler inside
  rw [run]
  exact now

theorem skipDtsOutputOfComposite_avoids (file : Path) (output : DeclarationOutput) (newSignature : String)
    (state : EmitWriteState) :
    Outcome.Satisfies missingDiagnostics (fun _ => True) (skipDtsOutputOfComposite s file output newSignature state) := by
  unfold skipDtsOutputOfComposite
  split
  · trivial
  refine Outcome.Satisfies.bind (P := fun _ => True) ?_ fun oldSignature _ => ?_
  · unfold oldDtsSignature
    split
    · trivial
    split
    · trivial
    · split
      · trivial
      · exact (by decide : "index out of bounds: the len is 0 but the index is 0" ≠ missingDiagnostics)
  · extract_lets signature
    split <;> trivial

theorem writeDeclaration_avoids (targetSourceFile : Option Path) (state : EmitWriteState) (output : DeclarationOutput) :
    Outcome.Satisfies missingDiagnostics (fun _ => True) (writeDeclaration s targetSourceFile state output) := by
  unfold writeDeclaration
  split
  · split
    · exact (by decide : "incremental declaration emit requires target source file" ≠ missingDiagnostics)
    · exact (by decide : "incremental declaration emit requires file info" ≠ missingDiagnostics)
    · split <;> exact skipDtsOutputOfComposite_avoids _ _ _ _
  · trivial

theorem emitWithOptions_avoids (emitter : Emitter) (options : EmitOptions) (writes : EmitWriteState) :
    Outcome.Satisfies missingDiagnostics (fun _ => True) (emitWithOptions s emitter options writes) := by
  unfold emitWithOptions
  dsimp only
  split
  · trivial
  · refine Outcome.Satisfies.bind (P := fun _ => True) ?_ fun _ _ => ?_
    · exact Outcome.Satisfies.foldlM (P := fun _ => True) _
        (fun state output _ => writeDeclaration_avoids _ state output) trivial
    · trivial

theorem emitPendingFile_avoids (emitter : Emitter) (isForDtsErrors : Bool) (options : EmitOptions)
    (h : EmitFilesHandler) (path : Path) :
    Outcome.Satisfies missingDiagnostics (fun _ => True)
      (emitPendingFile program emitter isForDtsErrors options s h path) := by
  unfold emitPendingFile
  split
  · trivial
  dsimp only
  split
  · trivial
  · split
    · refine (emitWithOptions_avoids _ _ _).bind fun _ _ => ?_
      trivial
    · trivial

variable (cached : Cached program s)
include cached

theorem Cached.storeWrites (h : EmitFilesHandler) : Cached program (storeWrites h s) where
  files := cached.files
  consistent changes := by
    have before := cached.consistent changes
    refine ⟨fun f file => ?_, before.referencing, before.allFiles⟩
    obtain ⟨info, found⟩ := Finmap.mem_iff.mp (before.infos f file)
    refine Finmap.mem_iff.mpr ⟨{ info with signature := (h.writes.signatures.lookup f).getD info.signature }, ?_⟩
    exact (HashMap.lookup_alterAll _ _ f).trans (by rw [found]; rfl)

theorem Cached.updateFile (h : EmitFilesHandler) (file : Path) : Cached program (updateFile h s file) := by
  refine cached.of_same ?_ ?_ <;>
  · unfold Incremental.updateFile
    cases h.writes.latestChangedDtsFiles.lookup file <;> cases h.emitUpdates.lookup file with
    | none => rfl
    | some update =>
      obtain ⟨kind, result, fromCache⟩ := update
      cases result <;> cases fromCache <;> dsimp only <;> (try split) <;> rfl

theorem Cached.emitted (h : EmitFilesHandler) : Cached program (updateSnapshotAfterEmit program h s).2 := by
  unfold updateSnapshotAfterEmit
  split
  · exact List.foldlRecOn _ _ (cached.storeWrites h) fun t now f _ => now.updateFile h f
  · exact cached.of_same rfl rfl

theorem Cached.ensureHasErrors : Cached program (ensureHasErrorsForState program compiler s) := by
  unfold ensureHasErrorsForState
  extract_lets files hasEmitDiagnostics hasIncludeProcessingDiagnostics found
  split
  · exact cached.of_same rfl rfl
  · split <;> exact cached.of_same rfl rfl

theorem Cached.buildInfo : Cached program (emitBuildInfo program compiler s).2 := by
  unfold emitBuildInfo
  split
  · exact cached
  extract_lets known errors
  have now : Cached program errors := by
    unfold errors
    split
    · split
      · exact (cached.ensureHasErrors compiler).of_same rfl rfl
      · exact cached.ensureHasErrors compiler
    · exact cached
  split
  · exact now
  · split
    · exact now
    · exact now.of_same rfl rfl

theorem Cached.withBuildInfo (result : EmitResult) : Cached program (withBuildInfo program compiler result s).2 := by
  have now := cached.buildInfo compiler
  unfold Incremental.withBuildInfo
  split <;> simpa only [*] using now

theorem Cached.collects (order : Enumeration s) :
    Outcome.Satisfies missingDiagnostics (Cached program) (collectAllAffectedFiles program order) := by
  obtain ⟨t, run, now⟩ := cached.collect order
  rw [run]
  exact now

theorem Cached.emitFilesIncremental (options : EmitOptions) (isForDtsErrors : Bool) :
    KeepsCache program (emitFilesIncremental program compiler s options isForDtsErrors) := by
  refine (cached.collects (compiler.enumeration s)).bind fun t now => ?_
  refine Outcome.Satisfies.bind (P := fun _ => True) ?_ fun h _ => ?_
  · exact Outcome.Satisfies.foldlM (P := fun _ => True) _ (fun h path _ => emitPendingFile_avoids _ _ _ h path) trivial
  · exact now.emitted _

theorem Cached.emitAllAffectedFiles (options : EmitOptions) (isForDtsErrors : Bool) :
    KeepsCache program (emitAllAffectedFiles program compiler s options isForDtsErrors) := by
  unfold Incremental.emitAllAffectedFiles
  split
  · refine (cached.emitFilesIncremental compiler options isForDtsErrors).bind fun result now => ?_
    dsimp only
    split
    · split <;> exact now
    · exact now.withBuildInfo compiler _
  split
  · refine (emitWithOptions_avoids _ _ _).bind fun result _ => ?_
    have now : Cached program _ := cached.emitted { writes := result.2 }
    dsimp only
    split
    · exact now
    · exact now.withBuildInfo compiler _
  · exact cached.of_same rfl rfl

theorem Cached.emitFiles (options : EmitOptions) (isForDtsErrors : Bool) :
    KeepsCache program (emitFiles program compiler s options isForDtsErrors) := by
  unfold Incremental.emitFiles
  split
  · exact (emitWithOptions_avoids _ _ _).bind fun result _ => cached.emitted { writes := result.2 }
  · exact cached.emitAllAffectedFiles compiler options isForDtsErrors

theorem Cached.keeps_declaration (file : Option Path) : KeepsCache program (getDeclarationDiagnostics program compiler s file) :=
  (cached.emitFiles compiler ⟨file, .all⟩ true).bind fun _ now => now

theorem Cached.keeps_any (inside : ∀ f ∈ requestedFiles program file, f ∈ program.getSourceFiles) (skip : Bool) :
    KeepsCache program (getDiagnosticsOfAnyProgram program compiler s file skip) := by
  unfold getDiagnosticsOfAnyProgram
  extract_lets config all more finish declarations
  have finished : ∀ result : List Diagnostic × Snapshot, Cached program result.2 → KeepsCache program (finish result) :=
    fun result now => now
  have declared : ∀ result : List Diagnostic × Snapshot, Cached program result.2 →
      KeepsCache program (declarations result) := by
    intro result now
    unfold declarations
    dsimp only
    split
    · exact (now.keeps_declaration compiler file).bind fun found after => finished (_, found.2) after
    · exact finished (_, result.2) now
  split
  · exact cached
  · split
    · exact (cached.keeps_semantic compiler inside).bind fun found now => declared (_, found.2) now
    · exact declared (_, s) cached

theorem Cached.keeps_noEmitOnError (inside : ∀ f ∈ requestedFiles program file, f ∈ program.getSourceFiles) :
    KeepsCache program (handleNoEmitOnError program compiler s file) := by
  unfold handleNoEmitOnError
  split
  · exact cached
  · refine (cached.keeps_any compiler inside true).bind fun found now => ?_
    dsimp only
    split <;> exact now

theorem Cached.keeps_emit (options : EmitOptions)
    (inside : ∀ f ∈ requestedFiles program options.targetSourceFile, f ∈ program.getSourceFiles) :
    KeepsCache program (emit program compiler s options) := by
  unfold emit
  extract_lets proceed
  have proceeded : ∀ result : Option EmitResult × Snapshot, Cached program result.2 →
      KeepsCache program (proceed result) := by
    intro result now
    unfold proceed
    dsimp only
    split
    · split
      · exact now
      · exact now.withBuildInfo compiler _
    · exact now.emitFiles compiler options false
  split
  · exact proceeded (some { emitSkipped := true }, s) cached
  · exact (cached.keeps_noEmitOnError compiler inside).bind proceeded
end

variable {program : CompilerProgram} {α : Type}

/-- The snapshots that programs come to: each is made for a new program, with or without an
old one or a build info file, and changed by asking for diagnostics and by emitting. -/
inductive Reachable : CompilerProgram → Snapshot → Prop
  | first (effects : OptionEffects) (repopulate : RepopulateDiagnosticMessageChain) (program : CompilerProgram) :
      Reachable program (programToSnapshot effects repopulate program none false [])
  | next {old program : CompilerProgram} {s : Snapshot} (effects : OptionEffects)
      (repopulate : RepopulateDiagnosticMessageChain) {samePointer : Bool} {oldFiles : List Path} :
      Reachable old s → (samePointer = true → program = old) → HashMap.Enumerates oldFiles s.fileInfos →
      Reachable program (programToSnapshot effects repopulate program (some ⟨s, some old⟩) samePointer oldFiles)
  | reload {program : CompilerProgram} (effects : OptionEffects) (repopulate : RepopulateDiagnosticMessageChain)
      (stored : Snapshot) {oldFiles : List Path} : HashMap.Enumerates oldFiles stored.fileInfos →
      Reachable program (programToSnapshot effects repopulate program (some ⟨stored, none⟩) false oldFiles)
  | collect {program : CompilerProgram} {s t : Snapshot} (compiler : Compiler) {file : Option Path} :
      Reachable program s → (∀ f ∈ requestedFiles program file, f ∈ program.getSourceFiles) →
      collectSemanticDiagnosticsOfAffectedFiles program compiler s file = .ok t → Reachable program t
  | semantic {program : CompilerProgram} {s t : Snapshot} (compiler : Compiler) {file : Option Path}
      {diagnostics : List Diagnostic} :
      Reachable program s → (∀ f ∈ requestedFiles program file, f ∈ program.getSourceFiles) →
      getSemanticDiagnostics program compiler s file = .ok (diagnostics, t) → Reachable program t
  | declaration {program : CompilerProgram} {s t : Snapshot} (compiler : Compiler) {file : Option Path}
      {diagnostics : List Diagnostic} :
      Reachable program s → getDeclarationDiagnostics program compiler s file = .ok (diagnostics, t) →
      Reachable program t
  | emit {program : CompilerProgram} {s t : Snapshot} (compiler : Compiler) {options : EmitOptions}
      {result : Option EmitResult} :
      Reachable program s →
      (∀ f ∈ requestedFiles program options.targetSourceFile, f ∈ program.getSourceFiles) →
      emit program compiler s options = .ok (result, t) → Reachable program t

theorem KeepsCache.of_ok {x : Outcome (α × Snapshot)} {a : α} {t : Snapshot}
    (keeps : KeepsCache program x) (run : x = .ok (a, t)) : Cached program t := by
  rw [run] at keeps
  exact keeps

theorem KeepsCache.avoids {x : Outcome (α × Snapshot)} (keeps : KeepsCache program x) : x ≠ .panic missingDiagnostics := by
  intro run
  rw [run] at keeps
  exact keeps rfl

theorem Reachable.cached {s : Snapshot} (reachable : Reachable program s) : Cached program s := by
  induction reachable with
  | first effects repopulate program =>
    exact programToSnapshot_cached effects repopulate none false [] fun same => by cases same
  | next effects repopulate _ same _ ih =>
    refine programToSnapshot_cached effects repopulate _ _ _ fun equal old here => ?_
    cases here
    exact same equal ▸ ih
  | reload effects repopulate stored _ =>
    exact programToSnapshot_cached effects repopulate _ _ _ fun same => by cases same
  | collect compiler _ inside run ih =>
    obtain ⟨t, found, now, -⟩ := ih.collectSemantic compiler inside
    cases found.symm.trans run
    exact now
  | semantic compiler _ inside run ih => exact (ih.keeps_semantic compiler inside).of_ok run
  | declaration compiler _ run ih => exact (ih.keeps_declaration compiler _).of_ok run
  | emit compiler _ inside run ih => exact (ih.keeps_emit compiler _ inside).of_ok run

/-- In every run only files of the program are cached. When the changed files have been
handled, there are as many entries as files only if every file has one; so asking for
diagnostics always gives them, and nothing aborts because they are missing. -/
theorem reachable_semanticCache {program : CompilerProgram} {s : Snapshot} (reachable : Reachable program s) :
    (∀ f ∈ s.semanticDiagnosticsPerFile, f ∈ program.getSourceFiles) ∧
    (s.semanticDiagnosticsPerFile.keys.card = program.getSourceFiles.length ↔
      ∀ f ∈ program.getSourceFiles, f ∈ s.semanticDiagnosticsPerFile) ∧
    (∀ order : Enumeration s, ∃ t, collectAllAffectedFiles program order = .ok t ∧
      (t.semanticDiagnosticsPerFile.keys.card = program.getSourceFiles.length ↔
        ∀ f ∈ program.getSourceFiles, f ∈ t.semanticDiagnosticsPerFile)) ∧
    ∀ compiler file, (∀ f ∈ requestedFiles program file, f ∈ program.getSourceFiles) →
      (∃ diagnostics t, getSemanticDiagnostics program compiler s file = .ok (diagnostics, t)) ∧
      ∀ emitOnly, emit program compiler s ⟨file, emitOnly⟩ ≠
        .panic "After handling all the affected files, there shouldnt be more changes" := by
  have cached := reachable.cached
  refine ⟨cached.files, cached.complete_iff, fun order => ?_, fun compiler file inside => ⟨?_, fun emitOnly => ?_⟩⟩
  · obtain ⟨t, run, now⟩ := cached.collect order
    exact ⟨t, run, now.complete_iff⟩
  · obtain ⟨diagnostics, t, run, -⟩ := cached.semantic compiler inside
    exact ⟨diagnostics, t, run⟩
  · exact (cached.keeps_emit compiler ⟨file, emitOnly⟩ inside).avoids

/-- A build info file of a program that had another file in place of the second one. -/
def storedSnapshot : Snapshot where
  fileInfos := (Finmap.singleton "a.ts" ⟨"a", "a", false, .none⟩).insert "gone.ts" ⟨"gone", "gone", false, .none⟩
  semanticDiagnosticsPerFile := (Finmap.singleton "a.ts" ⟨[], []⟩).insert "gone.ts" ⟨[], []⟩

def circleReloaded : Snapshot :=
  programToSnapshot ⟨fun _ _ => false, fun _ _ => false, fun _ _ => false⟩ (fun _ _ => none) circle
    (some ⟨storedSnapshot, none⟩) false ["a.ts", "gone.ts"]

theorem circleReloaded_reachable : Reachable circle circleReloaded :=
  .reload _ _ storedSnapshot ⟨by decide, fun f => by
    simp only [storedSnapshot, Finmap.mem_insert, Finmap.mem_singleton, mem_cons, not_mem_nil, or_false]
    exact or_comm⟩

theorem circleReloaded_semanticCache :
    (∀ f ∈ circleReloaded.semanticDiagnosticsPerFile, f ∈ circle.getSourceFiles) ∧
    (circleReloaded.semanticDiagnosticsPerFile.keys.card = circle.getSourceFiles.length ↔
      ∀ f ∈ circle.getSourceFiles, f ∈ circleReloaded.semanticDiagnosticsPerFile) ∧
    (∀ order : Enumeration circleReloaded, ∃ t, collectAllAffectedFiles circle order = .ok t ∧
      (t.semanticDiagnosticsPerFile.keys.card = circle.getSourceFiles.length ↔
        ∀ f ∈ circle.getSourceFiles, f ∈ t.semanticDiagnosticsPerFile)) ∧
    ∀ compiler file, (∀ f ∈ requestedFiles circle file, f ∈ circle.getSourceFiles) →
      (∃ diagnostics t, getSemanticDiagnostics circle compiler circleReloaded file = .ok (diagnostics, t)) ∧
      ∀ emitOnly, emit circle compiler circleReloaded ⟨file, emitOnly⟩ ≠
        .panic "After handling all the affected files, there shouldnt be more changes" :=
  reachable_semanticCache circleReloaded_reachable

end TypeScriptRs.Incremental
