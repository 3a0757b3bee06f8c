import TypeScriptRs.Incremental.CancelledCollection
import TypeScriptRs.Incremental.EmitUpdates

/-! What a cancelled emit leaves of the fields that a build info file is written from. -/
namespace TypeScriptRs.Incremental
open Machine Outcome List

section
variable {program : CompilerProgram} {compiler : Compiler} {s : Snapshot} {context : Context}

/-- There is no build info file, or it is known whether there are errors. -/
def ErrorsKept (compiler : Compiler) (s : Snapshot) : Prop :=
  compiler.buildInfoFileName = none ∨ s.hasErrors ≠ .unknown

theorem ensureHasErrorsForState_known : (ensureHasErrorsForState program compiler s).hasErrors ≠ .unknown := by
  unfold ensureHasErrorsForState
  extract_lets files hasEmitDiagnostics hasIncludeProcessingDiagnostics found
  split
  · split
    · rintro ⟨⟩
    · rintro ⟨⟩
  · split
    · rintro ⟨⟩
    · rintro ⟨⟩

theorem withBuildInfoIn_snapshot (result : EmitResult) :
    (withBuildInfoIn context program compiler result s).2 = (emitBuildInfoIn context program compiler s).2 := by
  unfold withBuildInfoIn
  split
  · rename_i here
    rw [here]
  · rename_i here
    rw [here]

theorem withBuildInfoIn_kept (result : EmitResult) (kept : ErrorsKept compiler s) :
    (withBuildInfoIn context program compiler result s).2.written = s.written := by
  rw [withBuildInfoIn_snapshot]
  unfold emitBuildInfoIn
  split
  · rfl
  rename_i file
  have known : s.hasErrors ≠ .unknown := kept.resolve_left (by simp [file])
  rw [if_neg known]
  dsimp only
  split
  · rfl
  · split
    · rfl
    · rfl

theorem withBuildInfoIn_known {context : Context} (result : EmitResult) (changed : ¬ErrorsKept compiler s) :
    (withBuildInfoIn context program compiler result s).2.hasErrors ≠ .unknown := by
  rw [withBuildInfoIn_snapshot]
  unfold emitBuildInfoIn
  split
  · rename_i file
    exact absurd (.inl file) changed
  have unknown : s.hasErrors = .unknown := not_not.mp fun known => changed (.inr known)
  extract_lets ensured errors
  have known : errors.hasErrors ≠ .unknown := by
    unfold errors
    rw [if_pos unknown]
    split
    · exact ensureHasErrorsForState_known
    · exact ensureHasErrorsForState_known
  split
  · exact known
  · split
    · exact known
    · exact known

theorem withBuildInfoIn_written_iff (result : EmitResult) {t : Snapshot}
    (same : s.hasErrors = t.hasErrors) : (withBuildInfoIn context program compiler result s).2.written = t.written ↔
      ErrorsKept compiler t ∧ s.written = t.written := by
  have kept_iff : ErrorsKept compiler s ↔ ErrorsKept compiler t := by rw [ErrorsKept, same, ErrorsKept]
  by_cases kept : ErrorsKept compiler s
  · rw [withBuildInfoIn_kept result kept, and_iff_right (kept_iff.mp kept)]
  · have known := @withBuildInfoIn_known program compiler s context result kept
    have unknown : t.hasErrors = .unknown := not_not.mp fun known => kept (kept_iff.mpr (.inr known))
    refine iff_of_false (fun equal => ?_) fun both => kept (kept_iff.mpr both.1)
    exact known ((congrArg WrittenFields.hasErrors equal).trans unknown)
end

section
variable {program : CompilerProgram} {emitter : Emitter} {isForDtsErrors : Bool} {options : EmitOptions} {s : Snapshot}
  {toDiagnostic : Path → BuildInfoDiagnosticWithFileName → Diagnostic} {h h' : EmitFilesHandler}
variable {p file : Path}

theorem emittedFile_own (member : p ∈ program.getSourceFiles) (known : emittedFile program p = some file) : file = p := by
  have found := (Option.filter_eq_some_iff.mp known).1
  exact Option.some.inj (found.symm.trans (program.own p member))

theorem emittedFile_source (known : emittedFile program p = some p) : p ∈ program.getSourceFiles :=
  program.target p p (Option.filter_eq_some_iff.mp known).1

theorem storeWrites_iff (differing : Differing s h.writes) :
    (storeWrites h s).fileInfos = s.fileInfos ∧ (storeWrites h s).emitSignatures = s.emitSignatures ↔ h.writes = {} := by
  rw [differing.eq_start_iff]
  constructor
  · rintro ⟨infos, signatures⟩
    refine ⟨HashMap.eq_empty fun file member => ?_, HashMap.eq_empty fun file member => ?_⟩
    · obtain ⟨signature, stored⟩ := Finmap.mem_iff.mp member
      obtain ⟨info, found, differs⟩ := differing.signatures file signature stored
      have after : (storeWrites h s).fileInfos.lookup file = some { info with signature := signature } := by
        refine (HashMap.lookup_alterAll _ _ file).trans ?_
        rw [found, Option.bind_some, stored, Option.getD_some]
      rw [infos, found] at after
      exact differs (congrArg FileInfo.signature (Option.some.inj after)).symm
    · obtain ⟨signature, stored⟩ := Finmap.mem_iff.mp member
      refine differing.emitSignatures file signature stored ?_
      rw [← signatures]
      exact (Finmap.lookup_union_left member).trans stored
  · rintro ⟨signatures, emitSignatures⟩
    refine ⟨Finmap.ext_lookup fun file => ?_, ?_⟩
    · refine (HashMap.lookup_alterAll _ _ file).trans ?_
      rw [signatures]
      cases s.fileInfos.lookup file with
      | none => rfl
      | some info => rfl
    · show h.writes.emitSignatures ∪ s.emitSignatures = s.emitSignatures
      rw [emitSignatures, Finmap.empty_union]

theorem storeWrites_pending (p : Path) : (storeWrites h s).affectedFilesPendingEmit.lookup p =
    if p ∈ h.deletedPendingKinds then none else s.affectedFilesPendingEmit.lookup p := by
  refine (HashMap.lookup_alterAll _ _ p).trans ?_
  cases s.affectedFilesPendingEmit.lookup p with
  | none =>
    split
    · rfl
    · rfl
  | some kind => rfl

variable (toDiagnostic) in
theorem cachedErrors_iff (diagnostics : CachedDiagnostics) (file : Path) :
    (if (cachedEmitDiagnostics toDiagnostic diagnostics file).isEmpty then some diagnostics
      else some ⟨cachedEmitDiagnostics toDiagnostic diagnostics file, []⟩) = some diagnostics ↔
    diagnostics.buildInfoDiagnostics = [] := by
  obtain ⟨found, stored⟩ := diagnostics
  unfold cachedEmitDiagnostics
  cases found with
  | nil =>
    cases stored with
    | nil => simp
    | cons first rest => simp
  | cons first rest =>
    simp only [isEmpty_cons, Bool.not_false, if_true, Bool.false_eq_true, if_false, Option.some.injEq,
      DiagnosticsOrBuildInfoDiagnosticsWithFileName.mk.injEq, true_and]
    exact eq_comm

/-- The pending paths have all that is asked for, or stand for files with the declarations that are remembered. -/
def PendingSettled (program : CompilerProgram) (isForDtsErrors : Bool) (options : EmitOptions) (s : Snapshot) : Prop :=
  ∀ p ∈ s.affectedFilesPendingEmit, ∃ file, emittedFile program p = some file ∧
    (askedKind isForDtsErrors options s p = 0 ∨ file ≠ p)

/-- The handler of an emit that has gone through the pending paths and through the errors. -/
structure Handles (program : CompilerProgram) (emitter : Emitter) (isForDtsErrors : Bool) (options : EmitOptions)
    (s : Snapshot) (toDiagnostic : Path → BuildInfoDiagnosticWithFileName → Diagnostic) (h h' : EmitFilesHandler) :
    Prop where
  emitted : ∃ paths, (∀ p, p ∈ paths ↔ p ∈ s.affectedFilesPendingEmit) ∧
    Emitted program emitter isForDtsErrors options s paths h
  added : ∃ errors, (∀ p, p ∈ errors ↔ p ∈ s.emitDiagnosticsPerFile) ∧
    ErrorsAdded program toDiagnostic s h errors h'

variable (handles : Handles program emitter isForDtsErrors options s toDiagnostic h h')

include handles

theorem Handles.update {update : EmitUpdate} (found : h'.emitUpdates.lookup p = some update) :
    ∃ file, emittedFile program p = some file ∧
      ((p ∈ s.affectedFilesPendingEmit ∧ askedKind isForDtsErrors options s p ≠ 0 ∧
          update.pendingKind = getPendingEmitKind (emitKindOf s p) (askedKind isForDtsErrors options s p) ∧
          update.dtsErrorsFromCache = false) ∨ ∃ diagnostics, s.emitDiagnosticsPerFile.lookup p = some diagnostics ∧
          update = cachedUpdate toDiagnostic s p file diagnostics) := by
  obtain ⟨⟨paths, pending, emitted⟩, errors, -, added⟩ := handles
  rcases added.added p update found with old | ⟨file, diagnostics, known, stored, same⟩
  · obtain ⟨member, file, known, asked⟩ := (emitted.updated p).mp (Finmap.mem_of_lookup_eq_some old)
    obtain ⟨kind, cached⟩ := emitted.kinds p update old
    exact ⟨file, known, .inl ⟨(pending p).mp member, asked, kind, cached⟩⟩
  · exact ⟨file, known, .inr ⟨diagnostics, stored, same⟩⟩

theorem Handles.blocked (blocked : Blocked program p) : h'.emitUpdates.lookup p = none := by
  cases found : h'.emitUpdates.lookup p with
  | none => rfl
  | some update =>
    obtain ⟨file, known, -⟩ := handles.update found
    exact absurd blocked (not_blocked known)

theorem Handles.deleted_iff (member : p ∈ s.affectedFilesPendingEmit) : p ∈ h'.deletedPendingKinds ↔ Blocked program p := by
  obtain ⟨⟨paths, pending, emitted⟩, errors, -, added⟩ := handles
  constructor
  · intro deleted
    rcases added.deleted p deleted with old | blocked
    · exact ((emitted.deleted p).mp old).2
    · exact blocked
  · intro blocked
    exact added.keeps p ((emitted.deleted p).mpr ⟨(pending p).mpr member, blocked⟩)

theorem Handles.asked (member : p ∈ s.affectedFilesPendingEmit)
    (known : emittedFile program p = some file) (asked : askedKind isForDtsErrors options s p ≠ 0) :
    ∃ update, h'.emitUpdates.lookup p = some update ∧ update.dtsErrorsFromCache = false ∧
      update.pendingKind ≠ emitKindOf s p := by
  obtain ⟨⟨paths, pending, emitted⟩, errors, -, added⟩ := handles
  have there : p ∈ h.emitUpdates := (emitted.updated p).mpr ⟨(pending p).mpr member, file, known, asked⟩
  obtain ⟨update, found⟩ := Finmap.mem_iff.mp there
  obtain ⟨kind, cached⟩ := emitted.kinds p update found
  refine ⟨update, added.before p update found, cached, ?_⟩
  obtain ⟨m, masked, mask⟩ := getPendingEmitKindForEmitOptions_masked isForDtsErrors options (emitKindOf s p)
  rw [kind]
  unfold askedKind at asked ⊢
  rw [masked] at asked ⊢
  exact getPendingEmitKind_ne asked mask

def pendingStored (program : CompilerProgram) (h' : EmitFilesHandler) (s : Snapshot) (p : Path) : Option FileEmitKind :=
  if p ∈ program.getSourceFiles then pendingAfter h' p ((storeWrites h' s).affectedFilesPendingEmit.lookup p)
  else (storeWrites h' s).affectedFilesPendingEmit.lookup p

omit handles in
theorem pendingStored_cached (cached : ∀ update, h'.emitUpdates.lookup p = some update → update.dtsErrorsFromCache = true) :
    pendingStored program h' s p = (storeWrites h' s).affectedFilesPendingEmit.lookup p := by
  unfold pendingStored
  split
  · unfold pendingAfter
    cases found : h'.emitUpdates.lookup p with
    | none => rfl
    | some update => exact if_pos (cached update found)
  · rfl

theorem Handles.pending_iff : (∀ p, pendingStored program h' s p = s.affectedFilesPendingEmit.lookup p) ↔
    PendingSettled program isForDtsErrors options s := by
  constructor
  · intro same p member
    obtain ⟨kind, there⟩ := Finmap.mem_iff.mp member
    have stored := (same p).trans there
    cases known : emittedFile program p with
    | none =>
      have cached : ∀ update, h'.emitUpdates.lookup p = some update → update.dtsErrorsFromCache = true := by
        rw [handles.blocked known]
        rintro _ ⟨⟩
      rw [pendingStored_cached cached, storeWrites_pending, if_pos ((handles.deleted_iff member).mpr known)] at stored
      cases stored
    | some file =>
      refine ⟨file, rfl, or_iff_not_imp_left.mpr fun asked => ?_⟩
      rintro rfl
      obtain ⟨update, found, fresh, other⟩ := handles.asked member known asked
      have kindOf : emitKindOf s file = kind := by rw [emitKindOf, there, Option.getD_some]
      rw [pendingStored, if_pos (emittedFile_source known), pendingAfter, found, Option.elim_some, fresh,
        if_neg Bool.false_ne_true] at stored
      split at stored
      · cases stored
      · exact other ((Option.some.inj stored).trans kindOf.symm)
  intro settled p
  by_cases member : p ∈ s.affectedFilesPendingEmit
  · obtain ⟨file, known, either⟩ := settled p member
    have kept : (storeWrites h' s).affectedFilesPendingEmit.lookup p = s.affectedFilesPendingEmit.lookup p := by
      rw [storeWrites_pending, if_neg]
      rw [handles.deleted_iff member]
      exact not_blocked known
    rcases either with settled | other
    · rw [pendingStored_cached, kept]
      intro update found
      obtain ⟨_, _, ⟨-, asked, -⟩ | ⟨diagnostics, -, rfl⟩⟩ := handles.update found
      · exact absurd settled asked
      · rfl
    · rw [pendingStored, if_neg, kept]
      exact fun source => other (emittedFile_own source known)
  · have absent := Finmap.lookup_eq_none.mpr member
    rw [pendingStored_cached, storeWrites_pending, absent, ite_self]
    intro update found
    obtain ⟨_, _, ⟨there, -⟩ | ⟨diagnostics, -, rfl⟩⟩ := handles.update found
    · exact absurd there member
    · rfl

def errorsStored (program : CompilerProgram) (h' : EmitFilesHandler) (s : Snapshot) (p : Path) :
    Option CachedDiagnostics :=
  if p ∈ program.getSourceFiles then errorsAfter h' p (s.emitDiagnosticsPerFile.lookup p)
  else s.emitDiagnosticsPerFile.lookup p

theorem Handles.cached (settled : PendingSettled program isForDtsErrors options s)
    (source : p ∈ program.getSourceFiles) {update : EmitUpdate} (found : h'.emitUpdates.lookup p = some update) :
    ∃ diagnostics, s.emitDiagnosticsPerFile.lookup p = some diagnostics ∧ emittedFile program p = some p ∧
      update = cachedUpdate toDiagnostic s p p diagnostics := by
  obtain ⟨file, known, ⟨member, asked, -⟩ | ⟨diagnostics, stored, same⟩⟩ := handles.update found
  · obtain ⟨file', known', nothing | other⟩ := settled p member
    · exact absurd nothing asked
    · exact absurd (emittedFile_own source known') other
  · obtain rfl := emittedFile_own source known
    exact ⟨diagnostics, stored, known, same⟩

theorem Handles.errors_iff (settled : PendingSettled program isForDtsErrors options s) :
    (∀ p, errorsStored program h' s p = s.emitDiagnosticsPerFile.lookup p) ↔
      ∀ p diagnostics, s.emitDiagnosticsPerFile.lookup p = some diagnostics → emittedFile program p = some p →
        diagnostics.buildInfoDiagnostics = [] := by
  have after : ∀ p diagnostics, p ∈ program.getSourceFiles → s.emitDiagnosticsPerFile.lookup p = some diagnostics →
      h'.emitUpdates.lookup p = some (cachedUpdate toDiagnostic s p p diagnostics) →
      (errorsStored program h' s p = s.emitDiagnosticsPerFile.lookup p ↔ diagnostics.buildInfoDiagnostics = []) := by
    intro p diagnostics source stored found
    rw [errorsStored, if_pos source, errorsAfter, found, stored, ← cachedErrors_iff toDiagnostic _ p]
    rfl
  constructor
  · intro same p diagnostics stored known
    have source := emittedFile_source known
    have updated : p ∈ h'.emitUpdates := by
      obtain ⟨-, errors, listed, added⟩ := handles
      exact added.all p ((listed p).mpr (Finmap.mem_of_lookup_eq_some stored)) (not_blocked known)
    obtain ⟨update, found⟩ := Finmap.mem_iff.mp updated
    obtain ⟨diagnostics', stored', -, rfl⟩ := handles.cached settled source found
    cases stored.symm.trans stored'
    exact (after p diagnostics source stored found).mp (same p)
  intro clean p
  by_cases source : p ∈ program.getSourceFiles
  · cases found : h'.emitUpdates.lookup p with
    | none =>
      rw [errorsStored, if_pos source, errorsAfter, found]
      rfl
    | some update =>
      obtain ⟨diagnostics, stored, known, rfl⟩ := handles.cached settled source found
      exact (after p diagnostics source stored found).mpr (clean p diagnostics stored known)
  · exact if_neg source
end

section
variable {program : CompilerProgram} {compiler : Compiler} {s t : Snapshot} {options : EmitOptions} {isForDtsErrors : Bool}
  {context : Context}

/-- An emit has nothing to store: of no pending path is something asked for, except that the path may stand for
another file whose declarations are those that are remembered, and no errors of an emitted file are those of a build
info file. -/
structure NothingToStore (program : CompilerProgram) (emitter : Emitter) (isForDtsErrors : Bool) (options : EmitOptions)
    (s : Snapshot) : Prop where
  pending : ∀ p ∈ s.affectedFilesPendingEmit, ∃ file, emittedFile program p = some file ∧
    (askedKind isForDtsErrors options s p = 0 ∨
      file ≠ p ∧ WritesNothing isForDtsErrors emitter s file (askedKind isForDtsErrors options s p))
  errors : ∀ p diagnostics, s.emitDiagnosticsPerFile.lookup p = some diagnostics → emittedFile program p = some p →
    diagnostics.buildInfoDiagnostics = []

theorem updateSnapshotAfterEmit_written_iff (incremental : s.canUseIncrementalState = true) {h : EmitFilesHandler}
    (ran : (compiler.pendingOrder.list s.affectedFilesPendingEmit.keys).foldlM
      (emitPendingFile program compiler.emitter isForDtsErrors options s) {} = .ok h) :
    (updateSnapshotAfterEmit program ((compiler.emitDiagnosticsOrder.list s.emitDiagnosticsPerFile.keys).foldl
      (addCachedErrors program compiler.toDiagnostic s) h) s).2.written = s.written ↔
      NothingToStore program compiler.emitter isForDtsErrors options s := by
  have pending : ∀ p, p ∈ compiler.pendingOrder.list s.affectedFilesPendingEmit.keys ↔ p ∈ s.affectedFilesPendingEmit :=
    fun p => (compiler.pendingOrder.mem_list _ p).trans Finmap.mem_keys
  have listed : ∀ p, p ∈ compiler.emitDiagnosticsOrder.list s.emitDiagnosticsPerFile.keys ↔
      p ∈ s.emitDiagnosticsPerFile := fun p => (compiler.emitDiagnosticsOrder.mem_list _ p).trans Finmap.mem_keys
  have emitted := emitPendingFiles_emitted incremental ran
  have added : ErrorsAdded program compiler.toDiagnostic s h _ _ :=
    addCachedErrors_all h _ fun p member => (listed p).mp member
  generalize (compiler.emitDiagnosticsOrder.list s.emitDiagnosticsPerFile.keys).foldl
    (addCachedErrors program compiler.toDiagnostic s) h = h' at added ⊢
  have handles : Handles program compiler.emitter isForDtsErrors options s compiler.toDiagnostic h h' :=
    ⟨⟨_, pending, emitted⟩, _, listed, added⟩
  have differing : Differing s h'.writes := added.writes ▸ emitted.differing
  obtain ⟨ofPending, ofErrors, ofLatest, rest⟩ :=
    updateFiles_updated h' program.getSourceFiles program.distinct (storeWrites h' s)
  unfold updateSnapshotAfterEmit
  rw [if_pos incremental]
  generalize program.getSourceFiles.foldl (updateFile h') (storeWrites h' s) = t at ofPending ofErrors ofLatest rest ⊢
  have stored : t.fileInfos = (storeWrites h' s).fileInfos ∧ t.emitSignatures = (storeWrites h' s).emitSignatures :=
    ⟨congrArg WrittenFields.fileInfos rest, congrArg WrittenFields.emitSignatures rest⟩
  constructor
  · intro same
    have settled : PendingSettled program isForDtsErrors options s := by
      refine handles.pending_iff.mp fun p => (ofPending p).symm.trans ?_
      exact congrArg (fun fields : WrittenFields => fields.affectedFilesPendingEmit.lookup p) same
    have clean := (handles.errors_iff settled).mp fun p => (ofErrors p).symm.trans
      (congrArg (fun fields : WrittenFields => fields.emitDiagnosticsPerFile.lookup p) same)
    have nothing : h.writes = {} := by
      rw [← added.writes]
      refine (storeWrites_iff differing).mp ⟨?_, ?_⟩
      · exact stored.1.symm.trans (congrArg WrittenFields.fileInfos same)
      · exact stored.2.symm.trans (congrArg WrittenFields.emitSignatures same)
    refine ⟨fun p member => ?_, clean⟩
    obtain ⟨file, known, either⟩ := settled p member
    refine ⟨file, known, or_iff_not_imp_left.mpr fun asked => ⟨either.resolve_left asked, ?_⟩⟩
    exact emitted.nothing.mp nothing p ((pending p).mpr member) file known asked
  intro idle
  have settled : PendingSettled program isForDtsErrors options s := fun p member =>
    (idle.pending p member).imp fun file both => ⟨both.1, both.2.imp_right And.left⟩
  have nothing : h'.writes = {} := by
    rw [added.writes]
    refine emitted.nothing.mpr fun p member file known asked => ?_
    obtain ⟨file', known', either⟩ := idle.pending p ((pending p).mp member)
    cases known.symm.trans known'
    exact (either.resolve_left asked).2
  obtain ⟨infos, signatures⟩ := (storeWrites_iff differing).mpr nothing
  have samePending : t.affectedFilesPendingEmit = s.affectedFilesPendingEmit :=
    Finmap.ext_lookup fun p => (ofPending p).trans (handles.pending_iff.mpr settled p)
  have sameErrors : t.emitDiagnosticsPerFile = s.emitDiagnosticsPerFile :=
    Finmap.ext_lookup fun p => (ofErrors p).trans ((handles.errors_iff settled).mpr idle.errors p)
  have sameLatest : t.latestChangedDtsFile = s.latestChangedDtsFile := ofLatest (by rw [nothing])
  have whole : (storeWrites h' s).written = { s.written with
      fileInfos := (storeWrites h' s).fileInfos
      emitSignatures := (storeWrites h' s).emitSignatures
      affectedFilesPendingEmit := (storeWrites h' s).affectedFilesPendingEmit } := rfl
  rw [rest, whole, infos, signatures, samePending, sameErrors, sameLatest]
  rfl

theorem updateSnapshotAfterEmit_hasErrors (h : EmitFilesHandler) :
    (updateSnapshotAfterEmit program h s).2.hasErrors = s.hasErrors := by
  unfold updateSnapshotAfterEmit
  split
  · exact congrArg WrittenFields.hasErrors (updateFiles_updated h _ program.distinct (storeWrites h s)).2.2.2
  · rfl

theorem emitFilesIncrementalIn_written {results : List EmitResult} {mid : Snapshot}
    (incremental : t.canUseIncrementalState = true)
    (collected : collectAllAffectedFilesIn context program (compiler.enumeration s) = .ok t)
    (ran : emitFilesIncrementalIn context program compiler s options isForDtsErrors = .ok (results, mid)) :
    mid.hasErrors = t.hasErrors ∧ (mid.written = t.written ↔
      context.cancelled .emitted = true ∨ NothingToStore program compiler.emitter isForDtsErrors options t) := by
  unfold emitFilesIncrementalIn at ran
  rw [collected, Outcome.monad_bind, Outcome.bind_ok] at ran
  split at ran
  · rename_i cancelled
    cases ran
    have later := context.lasts .collected .emitted (by decide) cancelled
    exact ⟨rfl, ⟨fun _ => .inl later, fun _ => rfl⟩⟩
  obtain ⟨h, handled, last⟩ := Outcome.bind_eq_ok ran
  split at last
  · rename_i cancelled
    cases last
    exact ⟨rfl, ⟨fun _ => .inl cancelled, fun _ => rfl⟩⟩
  rename_i running
  obtain rfl := congrArg Prod.snd (Outcome.ok.inj last)
  refine ⟨updateSnapshotAfterEmit_hasErrors _, ?_⟩
  rw [or_iff_right running]
  exact updateSnapshotAfterEmit_written_iff incremental handled

/-- Until its update starts, a collection leaves what is written as it was, and an emit as the collection left it. -/
structure Intact (context : Context) (s collected emitted : Snapshot) : Prop where
  collect : context.cancelled .collectUpdate = true → collected.written = s.written
  emit : context.cancelled .emitUpdate = true → emitted.written = collected.written

theorem cancelled_intact_iff {result : Option EmitResult} {u : Snapshot} (incremental : s.canUseIncrementalState = true)
    (collected : collectAllAffectedFilesIn context program (compiler.enumeration s) = .ok t)
    (ran : emitAllAffectedFilesIn context program compiler s options isForDtsErrors = .ok (result, u)) :
    Intact context s t u ↔ (context.cancelled .emitUpdate = true →
      (isForDtsErrors = true ∨ ErrorsKept compiler s) ∧
        (context.cancelled .emitted = true ∨ NothingToStore program compiler.emitter isForDtsErrors options t)) := by
  obtain ⟨sameOptions, sameErrors⟩ := collect_settings collected
  have incremental' : t.canUseIncrementalState = true := by
    rw [Snapshot.canUseIncrementalState, sameOptions]
    exact incremental
  have kept_iff : ErrorsKept compiler t ↔ ErrorsKept compiler s := by rw [ErrorsKept, sameErrors, ErrorsKept]
  unfold emitAllAffectedFilesIn at ran
  rw [if_pos incremental] at ran
  obtain ⟨⟨results, mid⟩, emitted, last⟩ := Outcome.bind_eq_ok ran
  obtain ⟨errors, stored⟩ := emitFilesIncrementalIn_written incremental' collected emitted
  have written : u.written = t.written ↔ (isForDtsErrors = true ∨ ErrorsKept compiler s) ∧
      (context.cancelled .emitted = true ∨ NothingToStore program compiler.emitter isForDtsErrors options t) := by
    rw [← stored]
    cases isForDtsErrors with
    | true =>
      have same : u = mid := by
        dsimp only at last
        rw [if_pos rfl] at last
        split at last
        · cases last
          rfl
        · cases last
          rfl
      rw [same, eq_self_iff_true, true_or, true_and]
    | false =>
      dsimp only at last
      cases last
      rw [withBuildInfoIn_written_iff _ errors, kept_iff, or_iff_right Bool.false_ne_true]
  constructor
  · intro intact cancelled
    exact written.mp (intact.emit cancelled)
  · intro condition
    exact ⟨fun cancelled => collect_cancelled cancelled collected, fun cancelled => written.mpr (condition cancelled)⟩
end

def Context.cancelledAtStart : Context := ⟨fun _ => true, fun _ _ _ _ => rfl⟩

def oneFile : CompilerProgram where
  options := { incremental := true }
  getSourceFiles := ["/a.ts"]
  filesByPath := Finmap.singleton "/a.ts" "/a.ts"
  isSourceFileDefaultLibrary _ := false
  skipTypeChecking _ := false
  isDeclarationFile _ := false
  isJsonSourceFile _ := false
  sourceFileMayBeEmitted _ := true
  version _ := "1"
  affectsGlobalScope _ := false
  impliedNodeFormat _ := .none
  getReferencedFiles _ := none
  computeDtsSignature _ := ""
  exportsConstEnum _ := false
  distinct := nodup_singleton _
  own f member := by
    rw [mem_singleton.mp member]
    exact Finmap.lookup_singleton_eq
  target p f found := by
    have member := Finmap.mem_of_lookup_eq_some found
    rw [Finmap.mem_singleton] at member
    rw [member, Finmap.lookup_singleton_eq] at found
    exact mem_singleton.mpr (Option.some.inj found).symm

def backwards (files : Finset Path) : List Path := files.sorted.reverse

theorem mem_backwards {files : Finset Path} {file : Path} : file ∈ backwards files ↔ file ∈ files :=
  mem_reverse.trans Finset.mem_sorted

theorem nodup_backwards (files : Finset Path) : (backwards files).Nodup :=
  nodup_reverse.mpr (Finset.nodup_sorted files)

/-- A compiler that lists tables backwards and finds nothing but the given errors of syntax. -/
def backwardsCompiler (syntacticDiagnostics : List Diagnostic) : Compiler where
  enumeration s := {
    changed := backwards s.changedFilesSet
    referencedBy := fun p => backwards (s.referencedBy p)
    affected := backwards
    changed_nodup := nodup_backwards _
    mem_changed := fun _ => mem_backwards
    referencedBy_nodup := fun _ => nodup_backwards _
    mem_referencedBy := fun _ _ => mem_backwards
    affected_nodup := nodup_backwards
    mem_affected := fun _ _ => mem_backwards }
  pendingOrder := ⟨backwards, nodup_backwards, fun _ _ => mem_backwards⟩
  emitDiagnosticsOrder := ⟨backwards, nodup_backwards, fun _ _ => mem_backwards⟩
  emitter := ⟨fun _ _ => ([], none), fun _ => []⟩
  getSemanticDiagnosticsWithoutNoEmitFiltering files := HashMap.ofKeys files.toFinset fun _ => some []
  oneEntryPerFile files f := by
    rw [← Finmap.lookup_isSome, HashMap.lookup_ofKeys]
    split
    · rename_i member
      exact iff_of_true rfl (mem_toFinset.mp member)
    · rename_i absent
      exact iff_of_false Bool.false_ne_true fun member => absent (mem_toFinset.mpr member)
  toDiagnostic _ _ := .mk none [] []
  filterNoEmitSemanticDiagnostics := id
  getIncludeProcessorDiagnostics _ := []
  getConfigFileParsingDiagnostics := []
  getSyntacticDiagnostics _ := syntacticDiagnostics
  getProgramDiagnostics := []
  getGlobalDiagnostics := []
  getGlobalDiagnosticsAgain := []
  sortAndDeduplicateDiagnostics := id
  buildInfoFileName := some "/tsconfig.tsbuildinfo"
  couldNotWriteFile := none

def pendingSnapshot (hasErrors : Tristate) : Snapshot where
  fileInfos := Finmap.singleton "/a.ts" ⟨"1", "1", false, .none⟩
  options := { incremental := true }
  affectedFilesPendingEmit := Finmap.singleton "/a.ts" fileEmitKindJs
  hasErrors := hasErrors

theorem pendingSnapshot_intact :
    emitAllAffectedFilesIn .cancelledAtStart oneFile (backwardsCompiler []) (pendingSnapshot .false) ⟨none, .all⟩ false =
        .ok (some {}, pendingSnapshot .false) ∧
      Intact .cancelledAtStart (pendingSnapshot .false) (pendingSnapshot .false) (pendingSnapshot .false) := by
  have ran : emitAllAffectedFilesIn .cancelledAtStart oneFile (backwardsCompiler []) (pendingSnapshot .false) ⟨none, .all⟩
      false = .ok (some {}, pendingSnapshot .false) := rfl
  refine ⟨ran, (cancelled_intact_iff rfl rfl ran).mpr fun _ => ⟨.inr (.inr ?_), .inl rfl⟩⟩
  exact Tristate.noConfusion

/-- A cancelled emit stores that there are errors. -/
theorem pendingSnapshot_changed : ∃ u,
    emitAllAffectedFilesIn .cancelledAtStart oneFile (backwardsCompiler [.mk none [] []]) (pendingSnapshot .unknown)
        ⟨none, .all⟩ false = .ok (some {}, u) ∧
      u.hasErrors = .true ∧ ¬Intact .cancelledAtStart (pendingSnapshot .unknown) (pendingSnapshot .unknown) u := by
  refine ⟨_, rfl, rfl, fun intact => ?_⟩
  have same := congrArg WrittenFields.hasErrors (intact.emit rfl)
  cases same

end TypeScriptRs.Incremental
