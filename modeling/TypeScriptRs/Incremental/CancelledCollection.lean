import TypeScriptRs.Incremental.Cancellation

/-! What a cancelled collection leaves of the fields of a build info file. -/
namespace TypeScriptRs.Incremental
open Machine Outcome AffectedFilesHandler

variable {context : Context} {t : Snapshot}

def Kept (s : Snapshot) (h : AffectedFilesHandler) : Prop := h.snapshot.written = s.written

variable {program : CompilerProgram} {s : Snapshot} {order : Enumeration s} {h : AffectedFilesHandler}

theorem Kept.allFiles (kept : Kept s h) (first : Option Path) :
    Kept s { h with snapshot := (h.snapshot.getAllFilesExcludingDefaultLibraryFile program first).2 } := by
  unfold Kept Snapshot.getAllFilesExcludingDefaultLibraryFile
  split
  · exact kept
  · exact kept

theorem Kept.updateShapeSignature (kept : Kept s h) (file : Path) (useFileVersionAsSignature : Bool) :
    Ensures (fun result => Kept s result.2) (h.updateShapeSignature program file useFileVersionAsSignature) := by
  intro result returned
  unfold AffectedFilesHandler.updateShapeSignature at returned
  split at returned
  · cases returned
    exact kept
  · split at returned
    · cases returned
    · cases returned
      exact kept

theorem Kept.removeDiagnosticsOfLibraryFiles (kept : Kept s h) : Kept s (h.removeDiagnosticsOfLibraryFiles program) := by
  unfold AffectedFilesHandler.removeDiagnosticsOfLibraryFiles
  split
  · exact kept
  · exact List.foldlRecOn _ _ kept fun _ now _ _ => now

theorem Kept.noteGlobalScope (kept : Kept s h) (file : Path) : Kept s (noteGlobalScope program file h) := by
  unfold Incremental.noteGlobalScope
  split
  · exact kept.allFiles (some file)
  · exact kept

theorem Kept.affectedLoop (fuel : Nat) : ∀ (queue : List Path) (seen found : Finset Path) (h : AffectedFilesHandler),
    Kept s h → Ensures (fun result => Kept s result.2) (affectedLoop program order fuel queue seen found h) := by
  induction fuel with
  | zero => rintro queue seen found h - _ ⟨⟩
  | succ fuel ih =>
    intro queue seen found h kept
    cases queue with
    | nil => exact Ensures.pure kept
    | cons currentPath queue =>
      unfold Incremental.affectedLoop
      split
      · exact ih _ _ _ _ kept
      · split
        · exact ih _ _ _ _ kept
        · exact (kept.updateShapeSignature _ false).bind fun result now => ih _ _ _ _ now

theorem Kept.getFilesAffectedBy (kept : Kept s h) (path : Path) :
    Ensures (fun result => Kept s result.2) (getFilesAffectedBy program order path h) := by
  unfold Incremental.getFilesAffectedBy
  split
  · exact Ensures.pure kept
  refine (kept.updateShapeSignature _ false).bind fun result now => ?_
  dsimp only
  split
  · exact Ensures.pure now
  · split
    · exact Ensures.pure (now.noteGlobalScope _)
    · exact Kept.affectedLoop _ _ _ _ _ (now.noteGlobalScope _)

theorem findAffectedFiles_kept : Ensures (fun result => Kept s result.2) (findAffectedFiles program order) := by
  refine Ensures.foldlM _ (fun c file kept => ?_) rfl
  exact Ensures.bind (Kept.getFilesAffectedBy kept file) fun result now => Ensures.pure now

variable {c : DtsMayChange × AffectedFilesHandler}

theorem Kept.handleDtsMayChangeOf (kept : Kept s c.2) (path : Path) (invalidateJsFiles : Bool) :
    Ensures (fun c => Kept s c.2) (handleDtsMayChangeOf (s := s) program path invalidateJsFiles c) := by
  unfold Incremental.handleDtsMayChangeOf
  split
  · exact Ensures.pure kept
  split
  · exact Ensures.pure kept
  refine Ensures.bind (Kept.updateShapeSignature (h := c.2.removeSemanticDiagnosticsOf path) kept _ true)
    fun result now => ?_
  dsimp only
  split
  · exact Ensures.pure now
  · split
    · exact Ensures.pure now
    · exact Ensures.pure now

theorem Kept.handleDtsMayChangeOfGlobalScope (kept : Kept s c.2) (path : Path) (invalidateJsFiles : Bool) :
    Ensures (fun result => Kept s result.2.2)
      (handleDtsMayChangeOfGlobalScope (s := s) program path invalidateJsFiles c) := by
  unfold Incremental.handleDtsMayChangeOfGlobalScope
  split
  · refine Ensures.bind (P := fun c => Kept s c.2) (Ensures.foldlM _ (fun c file now => ?_) (kept.allFiles none))
      fun result now => ?_
    · exact Kept.handleDtsMayChangeOf now file invalidateJsFiles
    · exact Ensures.pure (Kept.removeDiagnosticsOfLibraryFiles now)
  · exact Ensures.pure kept

theorem Kept.handleDtsMayChangeOfFileAndReferences (invalidateJsFiles : Bool) (fuel : Nat) :
    ∀ (path : Path) (c : DtsMayChange × AffectedFilesHandler), Kept s c.2 → Ensures (fun result => Kept s result.2.2)
      (handleDtsMayChangeOfFileAndReferences program order invalidateJsFiles fuel path c) := by
  induction fuel with
  | zero => rintro path c - _ ⟨⟩
  | succ fuel ih =>
    intro path c kept
    unfold Incremental.handleDtsMayChangeOfFileAndReferences
    dsimp only
    split
    · exact Ensures.pure kept
    refine Ensures.bind (Kept.handleDtsMayChangeOfGlobalScope
      (c := (c.1, { c.2 with
        seenFileAndReferences := c.2.seenFileAndReferences.insert path invalidateJsFiles })) kept _ _)
      fun result now => ?_
    split
    · exact Ensures.pure now
    · exact Ensures.bind (Kept.handleDtsMayChangeOf now _ _) fun c now =>
        Ensures.untilTrue _ (fun path c now => ih path c now) now

theorem Kept.handleIsolatedReferences (kept : Kept s c.2) (file : Path) :
    Ensures (fun result => Kept s result.2.2) (handleIsolatedReferences program order file c) := by
  refine Ensures.untilTrue (P := fun c : DtsMayChange × AffectedFilesHandler => Kept s c.2) _ (fun path c now => ?_) kept
  refine Ensures.bind (Kept.handleDtsMayChangeOfGlobalScope now path false) fun result now => ?_
  dsimp only
  split
  · exact Ensures.pure now
  · refine Ensures.bind (Kept.handleDtsMayChangeOf now path false) fun c now => ?_
    exact Ensures.bind (P := fun _ => True) (fun _ _ => trivial) fun _ _ => Ensures.pure now

theorem Kept.handleReferencingFiles (kept : Kept s c.2) (file : Path) :
    Ensures (fun result => Kept s result.2.2) (handleReferencingFiles program order file c) := by
  refine Ensures.untilTrue (P := fun c : DtsMayChange × AffectedFilesHandler => Kept s c.2) _ (fun path c now => ?_) kept
  refine Ensures.bind (Kept.handleDtsMayChangeOfGlobalScope now path _) fun result now => ?_
  dsimp only
  split
  · exact Ensures.pure now
  · exact Ensures.untilTrue (P := fun c : DtsMayChange × AffectedFilesHandler => Kept s c.2) _
      (fun path c now => Kept.handleDtsMayChangeOfFileAndReferences _ _ path c now) now

theorem Kept.handleDtsMayChangeOfAffectedFile (kept : Kept s c.2) (file : Path) :
    Ensures (fun c => Kept s c.2) (handleDtsMayChangeOfAffectedFile program order file c) := by
  unfold Incremental.handleDtsMayChangeOfAffectedFile
  dsimp only
  split
  · refine Ensures.bind (Kept.updateShapeSignature
      (h := (c.2.removeSemanticDiagnosticsOf file).removeDiagnosticsOfLibraryFiles program)
      (Kept.removeDiagnosticsOfLibraryFiles kept) _ false) fun result now => Ensures.pure now
  split
  · exact Ensures.pure kept
  split
  · exact Ensures.pure kept
  refine Ensures.bind (P := fun _ => True) (fun _ _ => trivial) fun changed _ => ?_
  split
  · exact Ensures.pure kept
  have rest : ∀ result : Bool × (DtsMayChange × AffectedFilesHandler), Kept s result.2.2 →
      Ensures (fun c => Kept s c.2) (if result.1 then pure result.2 else do
        let result ← Incremental.handleReferencingFiles program order file result.2
        pure result.2) := by
    intro result now
    split
    · exact Ensures.pure now
    · exact Ensures.bind (Kept.handleReferencingFiles now file) fun result now => Ensures.pure now
  split
  · exact Ensures.bind (Kept.handleIsolatedReferences (c := (c.1, c.2.removeSemanticDiagnosticsOf file)) kept file)
      rest
  · exact Ensures.bind (Ensures.pure (P := fun result => Kept s result.2.2) kept) rest

theorem Kept.handleAffectedFile (kept : Kept s h) (file : Path) : Ensures (Kept s) (handleAffectedFile program order h file) :=
  Ensures.bind (Kept.handleDtsMayChangeOfAffectedFile
    (c := (Finmap.singleton file (getFileEmitKind s.options), h)) kept file) fun _ now => Ensures.pure now

theorem collect_cancelled (cancelled : context.cancelled .collectUpdate = true)
    (ran : collectAllAffectedFilesIn context program order = .ok t) : t.written = s.written := by
  unfold collectAllAffectedFilesIn at ran
  split at ran
  · cases ran
    rfl
  obtain ⟨⟨result, h⟩, found, handled⟩ := Outcome.bind_eq_ok ran
  have kept : Kept s h := findAffectedFiles_kept _ found
  dsimp only at handled
  split at handled
  · cases handled
    exact kept
  · obtain ⟨h', all, last⟩ := Outcome.bind_eq_ok handled
    cases last
    exact Ensures.foldlM (P := Kept s) _ (fun h file now => now.handleAffectedFile file) kept _ all

theorem updateSnapshot_settings (h : AffectedFilesHandler) :
    (updateSnapshot h).options = h.snapshot.options ∧ (updateSnapshot h).hasErrors = h.snapshot.hasErrors := by
  let Settings := fun t : Snapshot => t.options = h.snapshot.options ∧ t.hasErrors = h.snapshot.hasErrors
  have all : ∀ (changes : List DtsMayChange) (t : Snapshot), Settings t →
      Settings (changes.foldl (fun t (change : DtsMayChange) =>
        change.foldl Snapshot.addFileToAffectedFilesPendingEmit addFileToAffectedFilesPendingEmit_comm t) t) := by
    intro changes t start
    refine List.foldlRecOn (motive := Settings) changes _ start fun t now change _ => ?_
    have each : ∀ t path kind, Settings t → Settings (t.addFileToAffectedFilesPendingEmit path kind) :=
      fun _ _ _ now => now
    exact HashMap.foldl_keeps addFileToAffectedFilesPendingEmit_comm each change now
  exact all h.dtsMayChange _ ⟨rfl, rfl⟩

theorem collect_settings (ran : collectAllAffectedFilesIn context program order = .ok t) :
    t.options = s.options ∧ t.hasErrors = s.hasErrors := by
  have ofKept : ∀ h, Kept s h → h.snapshot.options = s.options ∧ h.snapshot.hasErrors = s.hasErrors := fun h kept =>
    ⟨congrArg WrittenFields.options kept, congrArg WrittenFields.hasErrors kept⟩
  unfold collectAllAffectedFilesIn at ran
  split at ran
  · cases ran
    exact ⟨rfl, rfl⟩
  obtain ⟨⟨result, h⟩, found, handled⟩ := Outcome.bind_eq_ok ran
  have kept : Kept s h := findAffectedFiles_kept _ found
  dsimp only at handled
  split at handled
  · cases handled
    exact ofKept h kept
  obtain ⟨h', all, last⟩ := Outcome.bind_eq_ok handled
  have kept' : Kept s h' :=
    Ensures.foldlM (P := Kept s) _ (fun h file now => now.handleAffectedFile file) kept _ all
  split at last
  · cases last
    exact ofKept h' kept'
  · cases last
    rw [(updateSnapshot_settings h').1, (updateSnapshot_settings h').2]
    exact ofKept h' kept'

end TypeScriptRs.Incremental
