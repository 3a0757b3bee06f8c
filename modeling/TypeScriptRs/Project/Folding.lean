import TypeScriptRs.Project.OverlayFs

/-! What a batch of changes does to one of its files. -/
namespace TypeScriptRs.Project
open Machine List

section
variable {uri : DocumentUri} {change : FileChange} {s s' : FileChangeSummary × FileEventMap} {changes : List FileChange}

def ownChanges (uri : DocumentUri) (changes : List FileChange) : List FileChange := changes.filter (·.uri = uri)

theorem ownChanges_cons_same (same : change.uri = uri) (changes : List FileChange) :
    ownChanges uri (change :: changes) = change :: ownChanges uri changes := filter_cons_of_pos (decide_eq_true same)

theorem ownChanges_cons_other (other : change.uri ≠ uri) (changes : List FileChange) :
    ownChanges uri (change :: changes) = ownChanges uri changes := filter_cons_of_neg (by simpa using other)

theorem addChange_ok (added : addChange s change = .ok s') :
    ∃ events, ((s.2.lookup change.uri).getD {}).add change = .ok events ∧ s'.2 = s.2.insert change.uri events ∧
      s'.1.changed = s.1.changed ∧ s'.1.created = s.1.created ∧ s'.1.deleted = s.1.deleted := by
  obtain ⟨events, adding, rest⟩ := Outcome.bind_eq_ok added
  cases rest
  exact ⟨events, adding, rfl, rfl, rfl, rfl⟩

theorem addChanges_own (added : changes.foldlM addChange s = .ok s') (uri : DocumentUri) :
    (ownChanges uri changes).foldlM FileEvents.add ((s.2.lookup uri).getD {}) = .ok ((s'.2.lookup uri).getD {}) ∧
      (uri ∈ s'.2 ↔ uri ∈ s.2 ∨ ownChanges uri changes ≠ []) := by
  induction changes generalizing s with
  | nil =>
    cases added
    exact ⟨rfl, by simp [ownChanges]⟩
  | cons change changes ih =>
    rw [foldlM_cons] at added
    obtain ⟨between, first, later⟩ := Outcome.bind_eq_ok added
    obtain ⟨events, adding, inserted, -⟩ := addChange_ok first
    obtain ⟨folded, listed⟩ := ih later
    rw [inserted, HashMap.lookup_insert_if] at folded
    rw [inserted, Finmap.mem_insert] at listed
    by_cases same : change.uri = uri
    · rw [if_pos same.symm, Option.getD_some] at folded
      rw [ownChanges_cons_same same, foldlM_cons, ← same, adding, same]
      exact ⟨folded, listed.trans (by simp [same])⟩
    · rw [if_neg fun same' => same same'.symm] at folded
      rw [ownChanges_cons_other same]
      exact ⟨folded, listed.trans (by simp [Ne.symm same])⟩

theorem addChanges_summary (added : changes.foldlM addChange s = .ok s') :
    s'.1.changed = s.1.changed ∧ s'.1.created = s.1.created ∧ s'.1.deleted = s.1.deleted := by
  have kept := @Outcome.Ensures.foldlM _ _
    (fun now : FileChangeSummary × FileEventMap =>
      now.1.changed = s.1.changed ∧ now.1.created = s.1.created ∧ now.1.deleted = s.1.deleted)
    addChange changes (fun now change same next ran => by
      obtain ⟨-, -, -, changed, created, deleted⟩ := addChange_ok ran
      exact ⟨changed.trans same.1, created.trans same.2.1, deleted.trans same.2.2⟩) s ⟨rfl, rfl, rfl⟩
  exact kept s' added
end

variable {host : Host} {uri : DocumentUri} {s s' : FileChangeSummary × Overlays} {change : FileChange}

/-- A turn has touched only the overlay of its path and its file's part of the summary. -/
structure Spared (host : Host) (uri : DocumentUri) (before after : FileChangeSummary × Overlays) : Prop where
  overlays : ∀ p, p ≠ host.path uri → after.2.lookup p = before.2.lookup p
  changed : ∀ v, v ≠ uri → (v ∈ after.1.changed ↔ v ∈ before.1.changed)
  created : ∀ v, v ≠ uri → (v ∈ after.1.created ↔ v ∈ before.1.created)
  deleted : ∀ v, v ≠ uri → (v ∈ after.1.deleted ↔ v ∈ before.1.deleted)

theorem Spared.refl (s : FileChangeSummary × Overlays) : Spared host uri s s :=
  ⟨fun _ _ => rfl, fun _ _ => Iff.rfl, fun _ _ => Iff.rfl, fun _ _ => Iff.rfl⟩

theorem Spared.trans {s'' : FileChangeSummary × Overlays} (first : Spared host uri s s') (second : Spared host uri s' s'') :
    Spared host uri s s'' where
  overlays p other := (second.overlays p other).trans (first.overlays p other)
  changed v other := (second.changed v other).trans (first.changed v other)
  created v other := (second.created v other).trans (first.created v other)
  deleted v other := (second.deleted v other).trans (first.deleted v other)

def Turn.state (t : Turn) : FileChangeSummary × Overlays := (t.result, t.newOverlays)

variable {t t' : Turn}

theorem spared_insert {result : FileChangeSummary} {overlays : Overlays} (overlay : Overlay) :
    Spared host uri (result, overlays) (result, overlays.insert (host.path uri) overlay) :=
  ⟨fun p other => by rw [HashMap.lookup_insert_if, if_neg other], fun _ _ => Iff.rfl, fun _ _ => Iff.rfl, fun _ _ => Iff.rfl⟩

theorem spared_changed {result : FileChangeSummary} {overlays : Overlays} :
    Spared host uri (result, overlays) ({ result with changed := insert uri result.changed }, overlays) :=
  ⟨fun _ _ => rfl, fun v other => by simp [other], fun _ _ => Iff.rfl, fun _ _ => Iff.rfl⟩

theorem spared_open (opened : t.open_ host uri change = .ok t') : Spared host uri t.state t'.state := by
  unfold Turn.open_ at opened
  split at opened
  · cases opened
  cases opened
  have inserted := fun result => @spared_insert host uri result t.newOverlays
  cases t.overlay with
  | none => exact ⟨(inserted _ _).overlays, fun _ _ => Iff.rfl, fun _ _ => Iff.rfl, fun _ _ => Iff.rfl⟩
  | some existing =>
    dsimp only [Turn.state]
    split
    · exact ⟨(inserted _ _).overlays, fun v other => by simp [other], fun _ _ => Iff.rfl, fun _ _ => Iff.rfl⟩
    · exact ⟨(inserted _ _).overlays, fun _ _ => Iff.rfl, fun _ _ => Iff.rfl, fun _ _ => Iff.rfl⟩

theorem spared_close (closed : t.close host uri = .ok t') : Spared host uri t.state t'.state := by
  unfold Turn.close at closed
  split at closed
  · cases closed
  · cases closed
    exact ⟨fun p other => by simp only [Turn.state, HashMap.lookup_erase_if, if_neg other], fun _ _ => Iff.rfl, fun _ _ => Iff.rfl,
      fun _ _ => Iff.rfl⟩

theorem spared_watchChanged (saved : Bool) : Spared host uri t.state (t.watchChanged host uri saved).state := by
  unfold Turn.watchChanged
  cases t.overlay with
  | none => exact spared_changed
  | some current =>
    dsimp only
    split
    · split
      · exact spared_insert _
      · exact .refl _
    · exact .refl _

theorem spared_change (changed : t.change host uri change = .ok t') : Spared host uri t.state t'.state := by
  unfold Turn.change at changed
  split at changed
  · cases changed
  obtain ⟨overlay, -, rest⟩ := Outcome.bind_eq_ok changed
  cases rest
  split
  · exact spared_insert _
  · exact .refl _

theorem spared_changes {changes : List FileChange} (changed : t.changed host uri changes = .ok t') :
    Spared host uri t.state t'.state := by
  have kept := @Outcome.Ensures.foldlM _ _ (fun now : Turn => Spared host uri t.state now.state) (fun t change => t.change host uri change)
    changes (fun now change known next ran => known.trans (spared_change ran))
    { t with result := { t.result with changed := insert uri t.result.changed } } spared_changed
  exact kept t' changed

theorem spared_saved (saved : t.saved host uri = .ok t') : Spared host uri t.state t'.state := by
  unfold Turn.saved at saved
  split at saved
  · cases saved
  · cases saved
    exact spared_insert _

theorem spared_noted (created deleted : Bool) : Spared host uri t.state (t.noted uri created deleted, t.newOverlays) := by
  refine ⟨fun _ _ => rfl, fun v other => ?_, fun v other => ?_, fun v other => ?_⟩
  all_goals
    unfold Turn.noted
    dsimp only [Turn.state]
    split <;> split <;> simp [other]

theorem processFile_spares {events : FileEvents} (processed : processFile host s uri events = .ok s') : Spared host uri s s' := by
  unfold processFile at processed
  have start : Spared host uri s (Turn.state ⟨s.1, s.2, s.2.lookup (host.path uri)⟩) := .refl s
  cases opening : events.openChange with
  | some openChange =>
    simp only [opening] at processed
    obtain ⟨t', opened, rest⟩ := Outcome.bind_eq_ok processed
    cases rest
    exact start.trans (spared_open opened)
  | none =>
    simp only [opening] at processed
    obtain ⟨t₁, closed, processed⟩ := Outcome.bind_eq_ok processed
    obtain ⟨t₃, changed, processed⟩ := Outcome.bind_eq_ok processed
    obtain ⟨t₄, saved, processed⟩ := Outcome.bind_eq_ok processed
    cases processed
    have known₁ : Spared host uri s t₁.state := by
      split at closed
      · exact start.trans (spared_close closed)
      · cases closed
        exact start
    have known₂ : Spared host uri s (if events.watchChanged = true then t₁.watchChanged host uri events.saved else t₁).state := by
      split
      · exact known₁.trans (spared_watchChanged events.saved)
      · exact known₁
    have known₃ : Spared host uri s t₃.state := by
      split at changed
      · exact known₂.trans (spared_changes changed)
      · cases changed
        exact known₂
    have known₄ : Spared host uri s t₄.state := by
      split at saved
      · exact known₃.trans (spared_saved saved)
      · cases saved
        exact known₃
    exact known₄.trans (spared_noted events.created events.deleted)

theorem processFiles_cut {events : DocumentUri → FileEvents} {order : List DocumentUri}
    (distinct : order.Nodup) (listed : uri ∈ order)
    (ran : order.foldlM (fun s v => processFile host s v (events v)) s = .ok s') :
    ∃ (before after : List DocumentUri) (s₁ s₂ : FileChangeSummary × Overlays), uri ∉ before ∧ uri ∉ after ∧
      before.foldlM (fun s v => processFile host s v (events v)) s = .ok s₁ ∧
      processFile host s₁ uri (events uri) = .ok s₂ ∧
      after.foldlM (fun s v => processFile host s v (events v)) s₂ = .ok s' ∧
      ∀ v, v ∈ before ∨ v ∈ after → v ∈ order := by
  obtain ⟨before, after, rfl⟩ := append_of_mem listed
  rw [foldlM_append] at ran
  obtain ⟨s₁, first, rest⟩ := Outcome.bind_eq_ok ran
  obtain ⟨s₂, second, third⟩ := Outcome.bind_eq_ok rest
  obtain ⟨-, distinct', apart⟩ := nodup_append.mp distinct
  refine ⟨before, after, s₁, s₂, fun inside => ?_, (nodup_cons.mp distinct').1, first, second, third, fun v here => ?_⟩
  · exact apart uri inside uri mem_cons_self rfl
  · exact mem_append.mpr (here.imp_right (mem_cons_of_mem uri))

end TypeScriptRs.Project
