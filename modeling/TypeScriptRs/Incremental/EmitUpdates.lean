import TypeScriptRs.Incremental.Cancellation

/-! What an emit changes in a snapshot. -/
namespace TypeScriptRs.Incremental
open Machine Outcome List

section
variable {b e m : FileEmitKind}

theorem and_and_eq_zero {a : FileEmitKind} (disjoint : a &&& b = 0#32) (e : FileEmitKind) : (e &&& a) &&& (e &&& b) = 0#32 := by
  calc (e &&& a) &&& (e &&& b) = (e &&& e) &&& (a &&& b) := by ac_rfl
    _ = 0#32 := by rw [disjoint, BitVec.and_zero]

theorem xor_masked (e m : FileEmitKind) (inside : m &&& b = b) : ((e &&& m) ^^^ e) &&& b = 0#32 := by
  rw [← inside]
  ext i bound
  simp only [BitVec.getElem_and, BitVec.getElem_xor, BitVec.getElem_zero]
  cases e[i] with
  | false => rfl
  | true => cases m[i] with
    | false => rfl
    | true => rfl

theorem getPendingEmitKind_and (partly : e &&& m ≠ e) (some_ : e &&& m ≠ 0)
    (mask : m = fileEmitKindAllDts ∨ m = fileEmitKindDtsErrors) : getPendingEmitKind e (e &&& m) &&& (e &&& m) = 0#32 := by
  have present : e ≠ 0 := by
    rintro rfl
    exact some_ BitVec.zero_and
  have noJs : (e &&& fileEmitKindAllJs) &&& (e &&& m) = 0#32 := by
    refine and_and_eq_zero ?_ e
    rcases mask with rfl | rfl
    · decide
    · decide
  have noErrors : ((e &&& m) ^^^ e) &&& fileEmitKindDtsErrors = 0#32 := by
    refine xor_masked e m ?_
    rcases mask with rfl | rfl
    · decide
    · decide
  have noEmit : ((e &&& m) ^^^ e) &&& fileEmitKindAllDtsEmit = 0#32 ∨
      (e &&& fileEmitKindAllDtsEmit) &&& (e &&& m) = 0#32 := by
    rcases mask with rfl | rfl
    · exact .inl (xor_masked e _ (by decide))
    · exact .inr (and_and_eq_zero (by decide) e)
  rw [getPendingEmitKind, if_neg partly, if_neg (not_or.mpr ⟨some_, present⟩)]
  extract_lets diff nothing js errors
  have ofJs : js &&& (e &&& m) = 0#32 := by
    unfold js
    split
    · rw [show nothing = 0#32 from rfl, BitVec.zero_or, noJs]
    · exact BitVec.zero_and
  have ofErrors : errors = js := if_neg (not_not_intro noErrors)
  rw [ofErrors]
  split
  · rename_i other
    rw [BitVec.and_or_distrib_right, ofJs, noEmit.resolve_left other, BitVec.or_zero]
  · exact ofJs

theorem getPendingEmitKind_ne (some_ : e &&& m ≠ 0)
    (mask : e &&& m = e ∨ m = fileEmitKindAllDts ∨ m = fileEmitKindDtsErrors) : getPendingEmitKind e (e &&& m) ≠ e := by
  by_cases whole : e &&& m = e
  · rw [getPendingEmitKind, if_pos whole]
    exact fun same => some_ (whole.trans same.symm)
  · intro same
    have none_ := getPendingEmitKind_and whole some_ (mask.resolve_left whole)
    rw [same, ← BitVec.and_assoc, BitVec.and_self] at none_
    exact some_ none_

theorem getPendingEmitKindForEmitOptions_masked (isForDtsErrors : Bool) (options : EmitOptions) (e : FileEmitKind) :
    ∃ m, getPendingEmitKindForEmitOptions isForDtsErrors options e = e &&& m ∧
      (e &&& m = e ∨ m = fileEmitKindAllDts ∨ m = fileEmitKindDtsErrors) := by
  have all : getPendingEmitKind e 0 = e := by
    unfold getPendingEmitKind
    split
    · rename_i same
      exact same
    · rw [if_pos (.inl rfl)]
  have both : e &&& fileEmitKindAllDts &&& fileEmitKindDtsErrors = e &&& fileEmitKindDtsErrors := by
    rw [BitVec.and_assoc]
    rfl
  unfold getPendingEmitKindForEmitOptions
  rw [all]
  dsimp only
  by_cases dts : options.emitOnly = .dts
  · cases isForDtsErrors with
    | true => exact ⟨fileEmitKindDtsErrors, by rw [if_pos dts, if_pos rfl, both], .inr (.inr rfl)⟩
    | false => exact ⟨fileEmitKindAllDts, by rw [if_pos dts, if_neg Bool.false_ne_true], .inr (.inl rfl)⟩
  cases isForDtsErrors with
  | true => exact ⟨fileEmitKindDtsErrors, by rw [if_neg dts, if_pos rfl], .inr (.inr rfl)⟩
  | false =>
    have same : e &&& BitVec.allOnes 32 = e := BitVec.and_allOnes
    exact ⟨BitVec.allOnes 32, by rw [if_neg dts, if_neg Bool.false_ne_true, same], .inl same⟩
end

section
variable {s : Snapshot} {emitter : Emitter} {writes before new state : EmitWriteState}

/-- The signatures to be stored differ from those of the snapshot. -/
structure Differing (s : Snapshot) (writes : EmitWriteState) : Prop where
  signatures : ∀ file signature, writes.signatures.lookup file = some signature →
    ∃ info, s.fileInfos.lookup file = some info ∧ signature ≠ info.signature
  emitSignatures : ∀ file signature, writes.emitSignatures.lookup file = some signature →
    s.emitSignatures.lookup file ≠ some signature
  latest : ∀ file ∈ writes.latestChangedDtsFiles, file ∈ writes.emitSignatures
  emitDiagnostics : writes.hasEmitDiagnostics = false

theorem differing_start : Differing s {} where
  signatures _ _ found := by cases found
  emitSignatures _ _ found := by cases found
  latest _ member := absurd member Finmap.notMem_empty
  emitDiagnostics := rfl

theorem Differing.eq_start_iff (differing : Differing s writes) :
    writes = {} ↔ writes.signatures = ∅ ∧ writes.emitSignatures = ∅ := by
  constructor
  · rintro rfl
    exact ⟨rfl, rfl⟩
  rintro ⟨signatures, emitSignatures⟩
  have latest : writes.latestChangedDtsFiles = ∅ := by
    refine HashMap.eq_empty fun file member => ?_
    have there := differing.latest file member
    rw [emitSignatures] at there
    exact Finmap.notMem_empty there
  obtain ⟨_, _, _, _⟩ := writes
  cases signatures
  cases emitSignatures
  cases latest
  cases differing.emitDiagnostics
  rfl

theorem Differing.extend (first : Differing s before) (second : Differing s new) : Differing s (before.extend new) where
  signatures file signature found := by
    rcases HashMap.lookup_union_cases found with here | there
    · exact second.signatures file signature here
    · exact first.signatures file signature there
  emitSignatures file signature found := by
    rcases HashMap.lookup_union_cases found with here | there
    · exact second.emitSignatures file signature here
    · exact first.emitSignatures file signature there
  latest file member := by
    rcases Finmap.mem_union.mp member with here | there
    · exact Finmap.mem_union.mpr (.inl (second.latest file here))
    · exact Finmap.mem_union.mpr (.inr (first.latest file there))
  emitDiagnostics := by
    show (before.hasEmitDiagnostics || new.hasEmitDiagnostics) = false
    rw [first.emitDiagnostics, second.emitDiagnostics]
    rfl

theorem extend_start (writes : EmitWriteState) : EmitWriteState.extend {} writes = writes := by
  show (⟨writes.signatures ∪ ∅, writes.emitSignatures ∪ ∅, writes.latestChangedDtsFiles ∪ ∅,
    false || writes.hasEmitDiagnostics⟩ : EmitWriteState) = writes
  rw [Finmap.union_empty, Finmap.union_empty, Finmap.union_empty, Bool.false_or]

theorem extend_nothing (writes : EmitWriteState) : writes.extend {} = writes := by
  show (⟨∅ ∪ writes.signatures, ∅ ∪ writes.emitSignatures, ∅ ∪ writes.latestChangedDtsFiles,
    writes.hasEmitDiagnostics || false⟩ : EmitWriteState) = writes
  rw [Finmap.empty_union, Finmap.empty_union, Finmap.empty_union, Bool.or_false]

theorem Differing.extend_eq_start_iff (first : Differing s before)
    (second : Differing s new) : before.extend new = {} ↔ before = {} ∧ new = {} := by
  rw [(first.extend second).eq_start_iff, first.eq_start_iff, second.eq_start_iff]
  show new.signatures ∪ before.signatures = ∅ ∧ new.emitSignatures ∪ before.emitSignatures = ∅ ↔ _
  rw [HashMap.union_eq_empty_iff, HashMap.union_eq_empty_iff]
  tauto

theorem Differing.skipDtsOutputOfComposite (differing : Differing s state) (file : Path)
    (output : DeclarationOutput) (newSignature : String) :
    Ensures (Differing s) (skipDtsOutputOfComposite s file output newSignature state) := by
  unfold Incremental.skipDtsOutputOfComposite
  split
  · exact Ensures.pure differing
  extract_lets format signature
  refine Ensures.bind (P := fun old => oldDtsSignature format = .ok old) (fun _ returned => returned)
    fun oldSignature old => ?_
  split
  · exact Ensures.pure differing
  rename_i differs
  extract_lets next
  have fresh : format ≠ some ⟨signature, []⟩ := by
    intro same
    rw [same, oldDtsSignature] at old
    split at old
    · cases old
      exact differs ⟨rfl, by rw [same, Option.map_some]⟩
    · cases old
  have kept : next.signatures = state.signatures ∧ next.emitSignatures = state.emitSignatures ∧
      next.hasEmitDiagnostics = state.hasEmitDiagnostics ∧
      ∀ f ∈ next.latestChangedDtsFiles, f = file ∨ f ∈ state.latestChangedDtsFiles := by
    unfold next
    split
    · exact ⟨rfl, rfl, rfl, fun f member => .inr member⟩
    · exact ⟨rfl, rfl, rfl, fun f member => Finmap.mem_insert.mp member⟩
  obtain ⟨signatures, emitSignatures, emitDiagnostics, latest⟩ := kept
  refine Ensures.pure ⟨?_, fun f e found => ?_, fun f member => ?_, ?_⟩
  · rw [signatures]
    exact differing.signatures
  · rw [emitSignatures, HashMap.lookup_insert_if] at found
    split at found
    · rename_i here
      cases found
      rw [here]
      exact fresh
    · exact differing.emitSignatures f e found
  · rw [emitSignatures, Finmap.mem_insert]
    exact (latest f member).imp_right (differing.latest f)
  · exact emitDiagnostics.trans differing.emitDiagnostics

theorem Differing.writeDeclaration (incremental : s.canUseIncrementalState = true)
    (differing : Differing s state) (file : Path) (output : DeclarationOutput) :
    Ensures (Differing s) (writeDeclaration s (some file) state output) := by
  unfold Incremental.writeDeclaration
  rw [if_pos incremental, Option.bind_some]
  cases found : s.fileInfos.lookup file with
  | none => rintro _ ⟨⟩
  | some info =>
    dsimp only
    split
    · rename_i unset
      refine Differing.skipDtsOutputOfComposite ?_ file output _
      split
      · rename_i changed
        refine { differing with signatures := fun f signature stored => ?_ }
        rw [HashMap.lookup_insert_if] at stored
        split at stored
        · rename_i here
          cases stored
          exact ⟨info, here ▸ found, unset ▸ changed⟩
        · exact differing.signatures f signature stored
      · exact differing
    · exact differing.skipDtsOutputOfComposite file output ""

theorem emitWithOptions_writes (incremental : s.canUseIncrementalState = true) {file : Path} {only : EmitOnly}
    {writes' : EmitWriteState} {result : Option EmitResult}
    (ran : emitWithOptions s emitter ⟨some file, only⟩ writes = .ok (result, writes')) :
    ∃ new, writes' = writes.extend new ∧ Differing s new ∧
      emitWithOptions s emitter ⟨some file, only⟩ {} = .ok (result, new) := by
  unfold emitWithOptions at ran ⊢
  dsimp only at ran ⊢
  split at ran
  · rename_i noDeclarations
    cases ran
    rw [if_pos noDeclarations]
    exact ⟨{}, (extend_nothing writes).symm, differing_start, rfl⟩
  rename_i declarations
  obtain ⟨new, written, whole⟩ := Outcome.bind_eq_ok ran
  cases whole
  rw [if_neg declarations, written, Outcome.monad_bind, Outcome.bind_ok, extend_start]
  exact ⟨new, rfl, Ensures.foldlM _ (fun state output now => now.writeDeclaration incremental file output)
    differing_start new written, rfl⟩
end

section
variable {s : Snapshot} {program : CompilerProgram} {emitter : Emitter} {isForDtsErrors : Bool} {options : EmitOptions}
variable {h h' : EmitFilesHandler} {path p : Path} {done : List Path} {Q : Path → Prop}

def emitKindOf (s : Snapshot) (path : Path) : FileEmitKind := (s.affectedFilesPendingEmit.lookup path).getD 0

def askedKind (isForDtsErrors : Bool) (options : EmitOptions) (s : Snapshot) (path : Path) : FileEmitKind :=
  getPendingEmitKindForEmitOptions isForDtsErrors options (emitKindOf s path)

/-- Emitting the file stores nothing: its declarations are those that are remembered. -/
def WritesNothing (isForDtsErrors : Bool) (emitter : Emitter) (s : Snapshot) (file : Path) (kind : FileEmitKind) : Prop :=
  isForDtsErrors = true ∨ ∃ result, emitWithOptions s emitter ⟨some file, emitOnlyOfKind kind⟩ {} = .ok (result, {})

theorem emitPendingFile_cases (incremental : s.canUseIncrementalState = true)
    (ran : emitPendingFile program emitter isForDtsErrors options s h path = .ok h') :
    (emittedFile program path = none ∧ h' = { h with deletedPendingKinds := insert path h.deletedPendingKinds }) ∨
    (∃ file, emittedFile program path = some file ∧ askedKind isForDtsErrors options s path = 0 ∧ h' = h) ∨
    ∃ file result new, emittedFile program path = some file ∧ askedKind isForDtsErrors options s path ≠ 0 ∧
      Differing s new ∧
      (new = {} ↔ WritesNothing isForDtsErrors emitter s file (askedKind isForDtsErrors options s path)) ∧
      h' = { h with
        writes := h.writes.extend new
        emitUpdates := h.emitUpdates.insert path
          ⟨getPendingEmitKind (emitKindOf s path) (askedKind isForDtsErrors options s path), result, false⟩ } := by
  unfold emitPendingFile at ran
  split at ran
  · rename_i unknown
    cases ran
    exact .inl ⟨unknown, rfl⟩
  rename_i file known
  dsimp only at ran
  split at ran
  · rename_i settled
    cases ran
    exact .inr (.inl ⟨file, known, settled, rfl⟩)
  rename_i pending
  cases isForDtsErrors with
  | true =>
    cases ran
    exact .inr (.inr ⟨file, _, {}, known, pending, differing_start, ⟨fun _ => .inl rfl, fun _ => rfl⟩,
      by rw [extend_nothing]; rfl⟩)
  | false =>
    obtain ⟨⟨result, writes⟩, emitted, whole⟩ := Outcome.bind_eq_ok ran
    obtain ⟨new, rfl, differing, alone⟩ := emitWithOptions_writes incremental emitted
    cases whole
    refine .inr (.inr ⟨file, result, new, known, pending, differing, ⟨?_, ?_⟩, rfl⟩)
    · rintro rfl
      exact .inr ⟨result, alone⟩
    rintro (never | ⟨result', nothing⟩)
    · cases never
    · have same := alone.symm.trans nothing
      cases same
      rfl

def Blocked (program : CompilerProgram) (path : Path) : Prop := emittedFile program path = none

theorem not_blocked {file : Path} (known : emittedFile program path = some file) : ¬Blocked program path := by
  intro blocked
  cases known.symm.trans blocked

def Awaits (program : CompilerProgram) (isForDtsErrors : Bool) (options : EmitOptions) (s : Snapshot) (path : Path) :
    Prop :=
  ∃ file, emittedFile program path = some file ∧ askedKind isForDtsErrors options s path ≠ 0

structure Emitted (program : CompilerProgram) (emitter : Emitter) (isForDtsErrors : Bool) (options : EmitOptions)
    (s : Snapshot) (done : List Path) (h : EmitFilesHandler) : Prop where
  deleted : ∀ p, p ∈ h.deletedPendingKinds ↔ p ∈ done ∧ Blocked program p
  updated : ∀ p, p ∈ h.emitUpdates ↔ p ∈ done ∧ Awaits program isForDtsErrors options s p
  kinds : ∀ p update, h.emitUpdates.lookup p = some update →
    update.pendingKind = getPendingEmitKind (emitKindOf s p) (askedKind isForDtsErrors options s p) ∧
      update.dtsErrorsFromCache = false
  differing : Differing s h.writes
  nothing : h.writes = {} ↔ ∀ p ∈ done, ∀ file, emittedFile program p = some file →
    askedKind isForDtsErrors options s p ≠ 0 →
    WritesNothing isForDtsErrors emitter s file (askedKind isForDtsErrors options s p)

theorem emitted_start : Emitted program emitter isForDtsErrors options s [] {} where
  deleted p := by simp
  updated p := by simpa using Finmap.notMem_empty
  kinds p update found := by cases found
  differing := differing_start
  nothing := by simp

theorem mem_concat_and : p ∈ done ++ [path] ∧ Q p ↔ (p ∈ done ∧ Q p) ∨ (p = path ∧ Q path) := by
  rw [mem_append, mem_singleton, or_and_right]
  exact or_congr_right ⟨fun ⟨same, now⟩ => ⟨same, same ▸ now⟩, fun ⟨same, now⟩ => ⟨same, same ▸ now⟩⟩

theorem mem_concat_and_of_not (never : ¬Q path) : p ∈ done ++ [path] ∧ Q p ↔ p ∈ done ∧ Q p := by
  rw [mem_concat_and, or_iff_left fun here => never here.2]

theorem emitPendingFile_emitted (incremental : s.canUseIncrementalState = true) (emitted : Emitted program emitter isForDtsErrors options s done h)
    (ran : emitPendingFile program emitter isForDtsErrors options s h path = .ok h') :
    Emitted program emitter isForDtsErrors options s (done ++ [path]) h' := by
  obtain ⟨deleted, updated, kinds, differing, nothing⟩ := emitted
  obtain ⟨unknown, rfl⟩ | ⟨file, known, settled, rfl⟩ | ⟨file, result, new, known, pending, fresh, wrote, rfl⟩ :=
    emitPendingFile_cases incremental ran
  · have never : ¬Awaits program isForDtsErrors options s path := by
      rintro ⟨file, known, -⟩
      cases unknown.symm.trans known
    have blocked : Blocked program path := unknown
    refine ⟨fun p => ?_, fun p => (updated p).trans (mem_concat_and_of_not never).symm, kinds, differing, ?_⟩
    · rw [mem_concat_and, ← deleted, and_iff_left blocked, or_comm]
      exact Finset.mem_insert
    · rw [nothing, forall_mem_append, forall_mem_singleton]
      exact (and_iff_left fun file known pending => absurd ⟨file, known, pending⟩ never).symm
  · have never : ¬Awaits program isForDtsErrors options s path := by
      rintro ⟨-, -, pending⟩
      exact pending settled
    refine ⟨fun p => (deleted p).trans (mem_concat_and_of_not (not_blocked known)).symm,
      fun p => (updated p).trans (mem_concat_and_of_not never).symm, kinds, differing, ?_⟩
    rw [nothing, forall_mem_append, forall_mem_singleton]
    exact (and_iff_left fun file _ pending => absurd settled pending).symm
  have awaits : Awaits program isForDtsErrors options s path := ⟨file, known, pending⟩
  refine ⟨fun p => (deleted p).trans (mem_concat_and_of_not (not_blocked known)).symm, fun p => ?_, fun p update found => ?_,
    differing.extend fresh, ?_⟩
  · rw [mem_concat_and, ← updated, and_iff_left awaits, or_comm]
    exact Finmap.mem_insert
  · rw [HashMap.lookup_insert_if] at found
    split at found
    · rename_i here
      cases found
      rw [here]
      exact ⟨rfl, rfl⟩
    · exact kinds p update found
  · rw [differing.extend_eq_start_iff fresh, nothing, wrote, forall_mem_append, forall_mem_singleton]
    refine and_congr_right fun _ => ⟨fun now file' known' _ => ?_, fun all => all file known pending⟩
    cases known.symm.trans known'
    exact now

theorem emitPendingFiles_emitted (incremental : s.canUseIncrementalState = true) {paths : List Path} (ran : paths.foldlM (emitPendingFile program emitter isForDtsErrors options s) {} = .ok h) :
    Emitted program emitter isForDtsErrors options s paths h :=
  (@foldlM_ran _ _ _ (fun _ => True) (Emitted program emitter isForDtsErrors options s) _ (fun _ _ _ _ _ => trivial)
    (fun _ _ _ _ _ _ step _ now => emitPendingFile_emitted incremental now step) {} h ran trivial emitted_start).1

variable {toDiagnostic : Path → BuildInfoDiagnosticWithFileName → Diagnostic}

def cachedUpdate (toDiagnostic : Path → BuildInfoDiagnosticWithFileName → Diagnostic) (s : Snapshot) (p file : Path)
    (diagnostics : CachedDiagnostics) : EmitUpdate :=
  ⟨emitKindOf s p,
    some { emitSkipped := true, diagnostics := cachedEmitDiagnostics toDiagnostic diagnostics file }, true⟩

structure ErrorsAdded (program : CompilerProgram) (toDiagnostic : Path → BuildInfoDiagnosticWithFileName → Diagnostic)
    (s : Snapshot) (h : EmitFilesHandler) (done : List Path) (h' : EmitFilesHandler) : Prop where
  writes : h'.writes = h.writes
  keeps : ∀ p ∈ h.deletedPendingKinds, p ∈ h'.deletedPendingKinds
  deleted : ∀ p ∈ h'.deletedPendingKinds, p ∈ h.deletedPendingKinds ∨ Blocked program p
  before : ∀ p update, h.emitUpdates.lookup p = some update → h'.emitUpdates.lookup p = some update
  added : ∀ p update, h'.emitUpdates.lookup p = some update → h.emitUpdates.lookup p = some update ∨
    ∃ file diagnostics, emittedFile program p = some file ∧ s.emitDiagnosticsPerFile.lookup p = some diagnostics ∧
      update = cachedUpdate toDiagnostic s p file diagnostics
  all : ∀ p ∈ done, ¬Blocked program p → p ∈ h'.emitUpdates

theorem addCachedErrors_added (now : ErrorsAdded program toDiagnostic s h done h') (member : path ∈ s.emitDiagnosticsPerFile) :
    ErrorsAdded program toDiagnostic s h (done ++ [path]) (addCachedErrors program toDiagnostic s h' path) := by
  obtain ⟨diagnostics, errors⟩ := Finmap.mem_iff.mp member
  unfold addCachedErrors
  rw [errors]
  split
  · rename_i known
    refine ⟨now.writes, now.keeps, now.deleted, now.before, now.added, ?_⟩
    rw [forall_mem_append, forall_mem_singleton]
    exact ⟨now.all, fun _ => known⟩
  rename_i absent
  cases known : emittedFile program path with
  | none =>
    refine ⟨now.writes, fun p there => Finset.mem_insert_of_mem (now.keeps p there), fun p there => ?_, now.before,
      now.added, ?_⟩
    · rcases Finset.mem_insert.mp there with rfl | old
      · exact .inr known
      · exact now.deleted p old
    · rw [forall_mem_append, forall_mem_singleton]
      exact ⟨now.all, fun unblocked => absurd known unblocked⟩
  | some file =>
    refine ⟨now.writes, now.keeps, now.deleted, fun p update found => ?_, fun p update found => ?_, ?_⟩
    · have kept := now.before p update found
      have other : p ≠ path := by
        rintro rfl
        exact absent (Finmap.mem_of_lookup_eq_some kept)
      exact (HashMap.lookup_insert_if _ _ _ _).trans ((if_neg other).trans kept)
    · rw [HashMap.lookup_insert_if] at found
      split at found
      · rename_i here
        cases found
        exact .inr ⟨file, diagnostics, here ▸ known, here ▸ errors, by rw [here]; rfl⟩
      · exact now.added p update found
    · rw [forall_mem_append, forall_mem_singleton]
      refine ⟨fun p there unblocked => ?_, fun _ => Finmap.mem_insert.mpr (.inl rfl)⟩
      exact Finmap.mem_insert.mpr (.inr (now.all p there unblocked))

theorem addCachedErrors_all (h : EmitFilesHandler) (paths : List Path)
    (members : ∀ path ∈ paths, path ∈ s.emitDiagnosticsPerFile) :
    ErrorsAdded program toDiagnostic s h paths (paths.foldl (addCachedErrors program toDiagnostic s) h) := by
  induction paths using List.reverseRecOn with
  | nil => exact ⟨rfl, fun _ there => there, fun _ there => .inl there, fun _ _ there => there, fun _ _ there => .inl there,
      by rintro _ ⟨⟩⟩
  | append_singleton paths path ih =>
    rw [foldl_concat]
    rw [forall_mem_append, forall_mem_singleton] at members
    exact addCachedErrors_added (ih members.1) members.2
end

variable (h : EmitFilesHandler)

/-- What is pending for a source file once the handler is stored. -/
def pendingAfter (file : Path) (pending : Option FileEmitKind) : Option FileEmitKind :=
  (h.emitUpdates.lookup file).elim pending fun update =>
    if update.dtsErrorsFromCache then pending else if update.pendingKind = 0 then none else some update.pendingKind

def errorsAfter (file : Path) (errors : Option CachedDiagnostics) : Option CachedDiagnostics :=
  ((h.emitUpdates.lookup file).bind EmitUpdate.result).elim errors fun result =>
    if result.diagnostics.isEmpty then errors else some ⟨result.diagnostics, []⟩

structure FileUpdated (s : Snapshot) (file : Path) (t : Snapshot) : Prop where
  pending : ∀ p, t.affectedFilesPendingEmit.lookup p =
    if p = file then pendingAfter h file (s.affectedFilesPendingEmit.lookup file) else s.affectedFilesPendingEmit.lookup p
  errors : ∀ p, t.emitDiagnosticsPerFile.lookup p =
    if p = file then errorsAfter h file (s.emitDiagnosticsPerFile.lookup file) else s.emitDiagnosticsPerFile.lookup p
  latest : h.writes.latestChangedDtsFiles.lookup file = none → t.latestChangedDtsFile = s.latestChangedDtsFile
  rest : t.written = { s.written with
    affectedFilesPendingEmit := t.affectedFilesPendingEmit
    emitDiagnosticsPerFile := t.emitDiagnosticsPerFile
    latestChangedDtsFile := t.latestChangedDtsFile }

theorem updateFile_updated (s : Snapshot) (file : Path) : FileUpdated h s file (updateFile h s file) := by
  unfold updateFile
  extract_lets s₁
  have latest : h.writes.latestChangedDtsFiles.lookup file = none → s₁.latestChangedDtsFile = s.latestChangedDtsFile := by
    intro none_
    unfold s₁
    rw [none_]
  have first : s₁.written = { s.written with latestChangedDtsFile := s₁.latestChangedDtsFile } := by
    unfold s₁
    split
    · rfl
    · rfl
  have pending₁ : s₁.affectedFilesPendingEmit = s.affectedFilesPendingEmit :=
    congrArg WrittenFields.affectedFilesPendingEmit first
  have errors₁ : s₁.emitDiagnosticsPerFile = s.emitDiagnosticsPerFile :=
    congrArg WrittenFields.emitDiagnosticsPerFile first
  cases found : h.emitUpdates.lookup file with
  | none =>
    refine ⟨fun p => ?_, fun p => ?_, latest, ?_⟩
    · rw [pendingAfter, found, Option.elim_none, pending₁, ← HashMap.lookup_eq_if]
    · rw [errorsAfter, found, Option.bind_none, Option.elim_none, errors₁, ← HashMap.lookup_eq_if]
    · rw [first, pending₁, errors₁]
      rfl
  | some update =>
    obtain ⟨kind, result, fromCache⟩ := update
    dsimp -zeta only
    extract_lets s₂
    have pending₂ : ∀ p, s₂.affectedFilesPendingEmit.lookup p =
        if p = file then pendingAfter h file (s.affectedFilesPendingEmit.lookup file)
        else s.affectedFilesPendingEmit.lookup p := by
      intro p
      rw [pendingAfter, found, Option.elim_some]
      unfold s₂
      split
      · rw [pending₁, ← HashMap.lookup_eq_if]
      rw [pending₁]
      split
      · exact HashMap.lookup_erase_if _ _ _
      · exact HashMap.lookup_insert_if _ _ _ _
    have second : s₂.written = { s₁.written with affectedFilesPendingEmit := s₂.affectedFilesPendingEmit } := by
      unfold s₂
      split
      · rfl
      · rfl
    have errors₂ : s₂.emitDiagnosticsPerFile = s.emitDiagnosticsPerFile :=
      (congrArg WrittenFields.emitDiagnosticsPerFile second).trans errors₁
    have latest₂ : s₂.latestChangedDtsFile = s₁.latestChangedDtsFile :=
      congrArg WrittenFields.latestChangedDtsFile second
    have rest₂ : s₂.written = { s.written with
        affectedFilesPendingEmit := s₂.affectedFilesPendingEmit
        emitDiagnosticsPerFile := s₂.emitDiagnosticsPerFile
        latestChangedDtsFile := s₂.latestChangedDtsFile } := by
      rw [second, first, errors₂, latest₂]
      rfl
    cases result with
    | none =>
      refine ⟨pending₂, fun p => ?_, fun none_ => latest₂.trans (latest none_), rest₂⟩
      rw [errorsAfter, found, errors₂]
      exact HashMap.lookup_eq_if _ _ _
    | some result =>
      dsimp only
      split
      · rename_i clean
        refine ⟨pending₂, fun p => ?_, fun none_ => latest₂.trans (latest none_), rest₂⟩
        rw [errorsAfter, found, Option.bind_some, Option.elim_some, if_pos clean, errors₂]
        exact HashMap.lookup_eq_if _ _ _
      rename_i found'
      refine ⟨pending₂, fun p => ?_, fun none_ => latest₂.trans (latest none_), ?_⟩
      · rw [errorsAfter, found, Option.bind_some, Option.elim_some, if_neg found', errors₂]
        exact HashMap.lookup_insert_if _ _ _ _
      · exact congrArg (fun fields : WrittenFields => { fields with
          emitDiagnosticsPerFile := s₂.emitDiagnosticsPerFile.insert file ⟨result.diagnostics, []⟩ }) rest₂

theorem updateFiles_updated (files : List Path) (distinct : files.Nodup) (s : Snapshot) :
    (∀ p, (files.foldl (updateFile h) s).affectedFilesPendingEmit.lookup p =
      if p ∈ files then pendingAfter h p (s.affectedFilesPendingEmit.lookup p) else s.affectedFilesPendingEmit.lookup p) ∧
    (∀ p, (files.foldl (updateFile h) s).emitDiagnosticsPerFile.lookup p =
      if p ∈ files then errorsAfter h p (s.emitDiagnosticsPerFile.lookup p) else s.emitDiagnosticsPerFile.lookup p) ∧
    (h.writes.latestChangedDtsFiles = ∅ →
      (files.foldl (updateFile h) s).latestChangedDtsFile = s.latestChangedDtsFile) ∧
    (files.foldl (updateFile h) s).written = { s.written with
      affectedFilesPendingEmit := (files.foldl (updateFile h) s).affectedFilesPendingEmit
      emitDiagnosticsPerFile := (files.foldl (updateFile h) s).emitDiagnosticsPerFile
      latestChangedDtsFile := (files.foldl (updateFile h) s).latestChangedDtsFile } := by
  refine ⟨?_, ?_, fun none_ => ?_, ?_⟩
  · exact HashMap.foldl_own (fun t p => t.affectedFilesPendingEmit.lookup p) (pendingAfter h)
      (fun t file p => (updateFile_updated h t file).pending p) files distinct s
  · exact HashMap.foldl_own (fun t p => t.emitDiagnosticsPerFile.lookup p) (errorsAfter h)
      (fun t file p => (updateFile_updated h t file).errors p) files distinct s
  · have untouched : ∀ file, h.writes.latestChangedDtsFiles.lookup file = none := by
      intro file
      rw [none_]
      exact Finmap.lookup_empty file
    exact List.foldlRecOn (motive := fun t => t.latestChangedDtsFile = s.latestChangedDtsFile) files (updateFile h) rfl
      fun t now file _ => ((updateFile_updated h t file).latest (untouched file)).trans now
  · refine List.foldlRecOn (motive := fun t => t.written = { s.written with
      affectedFilesPendingEmit := t.affectedFilesPendingEmit
      emitDiagnosticsPerFile := t.emitDiagnosticsPerFile
      latestChangedDtsFile := t.latestChangedDtsFile }) files (updateFile h) rfl fun t now file _ => ?_
    rw [(updateFile_updated h t file).rest, now]

end TypeScriptRs.Incremental
