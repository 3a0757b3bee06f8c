import TypeScriptRs.Incremental.GlobalScope
import TypeScriptRs.Incremental.SemanticCache

/-! Files of the old program that the new one does not have. -/
namespace TypeScriptRs.Incremental
open List

section
variable (effects : OptionEffects) (repopulate : RepopulateDiagnosticMessageChain) (program : CompilerProgram) (old : Program)

/-- The snapshot of the new program that `handle_file_delete` is called on. -/
def snapshotOfChanges : Snapshot :=
  computeProgramFileChanges effects repopulate program
    (reuseFromOldProgram { options := program.options, checkPending := program.options.noCheck } (some old)) (some old)

def Deleted (f : Path) : Prop := f ∈ old.snapshot.fileInfos ∧ f ∉ program.getSourceFiles

def WasGlobal (f : Path) : Prop := ((old.snapshot.fileInfos.lookup f).map FileInfo.affectsGlobalScope).getD false = true

/-- The result of `handle_file_delete`: a global file was removed, and every own file counts as changed. -/
def InvalidatesAll (result : Bool × Snapshot) : Prop :=
  result.1 = true ∧ ∀ f ∈ program.ownFiles, f ∈ result.2.changedFilesSet

variable {effects repopulate program old} {s t : Snapshot}

theorem fileInfos_of_tables (same : t.tables = s.tables) : t.fileInfos = s.fileInfos := by
  simp only [Snapshot.tables, Prod.mk.injEq] at same
  exact same.2.2.1

theorem fileInfos_copyDiagnostics (rules : CopyRules) (s : Snapshot) (file : Path) :
    (copyDiagnostics repopulate program rules old s file).fileInfos = s.fileInfos := by
  unfold copyDiagnostics
  cases old.snapshot.emitDiagnosticsPerFile.lookup file <;>
  · dsimp only
    split
    · split <;> rfl
    · rfl

theorem mem_fileInfos_change (rules : CopyRules) (s : Snapshot) (file f : Path) :
    f ∈ (computeProgramFileChange repopulate program rules old s file).fileInfos ↔ f = file ∨ f ∈ s.fileInfos := by
  unfold computeProgramFileChange
  extract_lets stored marked copied
  have atStored : stored.fileInfos = s.fileInfos := by
    unfold stored storeReferences
    split <;> rfl
  have atMarked : marked.fileInfos = s.fileInfos := by
    unfold marked
    split <;> exact atStored
  have atCopied : copied.fileInfos = s.fileInfos := by
    unfold copied
    split
    · rw [fileInfos_copyDiagnostics, atMarked]
    · exact atMarked
  rw [storeFileInfo, Finmap.mem_insert, fileInfos_of_tables (tables_copyEmitSignature _ _ _ _), atCopied]

theorem mem_fileInfos_changes (rules : CopyRules) (files : List Path) (s : Snapshot) (f : Path) :
    f ∈ (files.foldl (computeProgramFileChange repopulate program rules old) s).fileInfos ↔ f ∈ files ∨ f ∈ s.fileInfos := by
  induction files generalizing s with
  | nil => simp
  | cons file files ih => rw [foldl_cons, ih, mem_fileInfos_change, mem_cons, or_left_comm, ← or_assoc]

theorem mem_snapshotOfChanges (f : Path) :
    f ∈ (snapshotOfChanges effects repopulate program old).fileInfos ↔ f ∈ program.getSourceFiles := by
  unfold snapshotOfChanges computeProgramFileChanges
  rw [mem_fileInfos_changes]
  exact or_iff_left Finmap.notMem_empty

theorem mem_foldl_addFileToChangeSet (files : List Path) (s : Snapshot) (f : Path) :
    f ∈ (files.foldl Snapshot.addFileToChangeSet s).changedFilesSet ↔ f ∈ files ∨ f ∈ s.changedFilesSet := by
  induction files generalizing s with
  | nil => simp
  | cons file files ih =>
    rw [foldl_cons, ih, mem_cons]
    simp [Snapshot.addFileToChangeSet, or_left_comm, or_assoc]

theorem prepared_snapshotOfChanges :
    Prepared program (· ∈ program.getSourceFiles) (snapshotOfChanges effects repopulate program old) :=
  Prepared.changes (Prepared.start rfl) effects repopulate (some old)

theorem handleFileDelete_of_first {oldFiles : List Path} {first : Path}
    (found : oldFiles.find? (fun f => f ∉ (snapshotOfChanges effects repopulate program old).fileInfos) = some first) :
    InvalidatesAll program (handleFileDelete program old oldFiles (snapshotOfChanges effects repopulate program old)) ↔
      WasGlobal old first := by
  unfold handleFileDelete
  rw [found]
  dsimp only
  split
  · rename_i global
    refine iff_of_true ⟨rfl, fun f own => ?_⟩ global
    have same : SameSnapshot program (snapshotOfChanges effects repopulate program old)
        (snapshotOfChanges effects repopulate program old) :=
      ⟨_, rfl, prepared_snapshotOfChanges.allFiles⟩
    have listed := (same.allFiles none (fun f here => by cases here)).1 f
    exact (mem_foldl_addFileToChangeSet _ _ f).mpr (.inl (listed.mpr own))
  · rename_i other
    exact iff_of_false (fun invalidates => absurd invalidates.1 Bool.false_ne_true) other

/-- Whatever the order of the old files, the loss of a global file makes every own file count as changed, exactly if all deleted
files were global when one was. -/
theorem globalFileDeleted_invalidates_iff :
    (∀ oldFiles, HashMap.Enumerates oldFiles old.snapshot.fileInfos → (∃ f, Deleted program old f ∧ WasGlobal old f) →
      InvalidatesAll program (handleFileDelete program old oldFiles (snapshotOfChanges effects repopulate program old))) ↔
    ((∃ f, Deleted program old f ∧ WasGlobal old f) → ∀ f, Deleted program old f → WasGlobal old f) := by
  constructor
  · intro invalidates global f deleted
    -- the order in which this file comes first
    obtain ⟨order, nodup, complete⟩ := HashMap.exists_enumerates old.snapshot.fileInfos
    have enumerates : HashMap.Enumerates (f :: order.erase f) old.snapshot.fileInfos := by
      refine ⟨nodup_cons.mpr ⟨nodup.not_mem_erase, nodup.erase f⟩, fun k => ?_⟩
      rw [← complete, (perm_cons_erase ((complete f).mpr deleted.1)).mem_iff]
    have found : (f :: order.erase f).find? (fun f => f ∉ (snapshotOfChanges effects repopulate program old).fileInfos) = some f := by
      rw [List.find?_cons_of_pos]
      exact decide_eq_true fun member => deleted.2 ((mem_snapshotOfChanges f).mp member)
    exact (handleFileDelete_of_first found).mp (invalidates _ enumerates global)
  · rintro all oldFiles ⟨-, complete⟩ ⟨f, deleted, global⟩
    have some_ : (oldFiles.find? fun f => f ∉ (snapshotOfChanges effects repopulate program old).fileInfos).isSome := by
      rw [List.find?_isSome]
      exact ⟨f, (complete f).mpr deleted.1, decide_eq_true fun member => deleted.2 ((mem_snapshotOfChanges f).mp member)⟩
    obtain ⟨first, found⟩ := Option.isSome_iff_exists.mp some_
    have missing : first ∉ (snapshotOfChanges effects repopulate program old).fileInfos := by simpa using List.find?_some found
    have listed := (complete first).mp (mem_of_find?_eq_some found)
    refine (handleFileDelete_of_first found).mpr (all ⟨f, deleted, global⟩ first ⟨listed, fun member => ?_⟩)
    exact missing ((mem_snapshotOfChanges first).mpr member)
end

def plainEffects : OptionEffects := ⟨fun _ _ => false, fun _ _ => false, fun _ _ => false⟩

/-- The program before had a module and a script that declared globals. -/
def scriptAndModuleBefore : Program := ⟨{ fileInfos := scriptAndModuleInfos }, some scriptAndModule⟩

def otherModule : CompilerProgram := .ofFiles ["other.ts"] (by decide) fun _ => false

/-- When the module is listed first, the loss of the script goes unnoticed. -/
theorem moduleFirst_unnoticed :
    Deleted otherModule scriptAndModuleBefore "globals.ts" ∧ WasGlobal scriptAndModuleBefore "globals.ts" ∧
    HashMap.Enumerates ["module.ts", "globals.ts"] scriptAndModuleBefore.snapshot.fileInfos ∧
    ¬ InvalidatesAll otherModule (handleFileDelete otherModule scriptAndModuleBefore ["module.ts", "globals.ts"]
      (snapshotOfChanges plainEffects (fun _ _ => none) otherModule scriptAndModuleBefore)) := by
  refine ⟨⟨by decide, by decide⟩, rfl, ⟨by decide, fun k => ?_⟩, fun invalidates => ?_⟩
  · rw [← Finmap.lookup_isSome]
    simp [scriptAndModuleBefore, scriptAndModuleInfos, HashMap.lookup_ofKeys, or_comm]
  · exact absurd invalidates.1 (by decide)

end TypeScriptRs.Incremental
