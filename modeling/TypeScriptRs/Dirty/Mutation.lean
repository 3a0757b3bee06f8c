import TypeScriptRs.Dirty.View

/-! Changing and deleting through a handle are one kind of step. -/
namespace TypeScriptRs.Dirty.SyncMap

variable {K V : Type} [DecidableEq K]

inductive Mutated (upd : MapEntry K V → MapEntry K V) (s : SyncMap K V) (k : K) (r : Nat) :
    SyncMap K V → Prop
  | own (e : SyncMapEntry K V) (here : s.dirty.lookup k = some r) (entry : s.entry r = some e) :
      Mutated upd s k r (s.setEntry r ⟨upd e.mapEntry, e.proxyFor⟩)
  | becomes (e : SyncMapEntry K V) (free : s.dirty.lookup k = none) (clean : s.Clean k r e) :
      Mutated upd s k r ((s.store k r).setEntry r ⟨upd e.mapEntry, e.proxyFor⟩)
  | redirected (e e' d : SyncMapEntry K V) (t : Nat) (here : s.dirty.lookup k = some t)
      (stored : s.entry t = some d) (clean : s.Clean k r e) (other : t ≠ r)
      (proxyFor : e'.proxyFor = some t) :
      Mutated upd s k r ((s.setEntry r e').setEntry t ⟨upd d.mapEntry, d.proxyFor⟩)

/-- An update of a dirty entry, and its effect on the value the entry shows. -/
structure Updates (upd : MapEntry K V → MapEntry K V) (effect : Option V → Option V) : Prop where
  key : ∀ e, (upd e).key = e.key
  mark : ∀ e, (upd e).dirty = true ∨ (upd e).delete = true
  shown : ∀ e, (upd e).shown = effect e.shown

namespace Mutated

variable {upd : MapEntry K V → MapEntry K V} {effect : Option V → Option V} {s s' : SyncMap K V}
  {k : K} {r : Nat}
variable {k' : K} {h' : Nat} {e' : SyncMapEntry K V}

theorem base_eq (h : Mutated upd s k r s') : s'.base = s.base := by
  cases h <;> rfl

theorem stored (h : Mutated upd s k r s') (updates : Updates upd effect) (wf : s.WellFormed) :
    ∃ t d, s'.dirty.lookup k = some t ∧ s'.entry t = some d ∧ d.proxyFor = none ∧
      d.mapEntry.key = k ∧ (d.mapEntry.dirty = true ∨ d.mapEntry.delete = true) ∧
      d.mapEntry.shown = effect (s.view k) := by
  cases h with
  | own e here entry =>
    obtain ⟨e', same, key, noProxy, -⟩ := wf k r here
    obtain rfl : e' = e := by simpa [entry] using same.symm
    refine ⟨r, ⟨upd e'.mapEntry, e'.proxyFor⟩, here, by rw [entry_setEntry s entry, if_pos rfl], noProxy,
      ?_, updates.mark _, ?_⟩
    · rw [updates.key, key]
    · rw [view_stored wf here entry, updates.shown]
  | becomes e free clean =>
    have entry : (s.store k r).entry r = some e := clean.entry
    refine ⟨r, ⟨upd e.mapEntry, e.proxyFor⟩, ?_, by rw [entry_setEntry _ entry, if_pos rfl], clean.noProxy,
      ?_, updates.mark _, ?_⟩
    · rw [setEntry_dirty, store_lookup, if_pos rfl]
    · rw [updates.key, clean.key]
    · rw [view_none free, ← clean.shown, updates.shown]
  | redirected e e' d t here stored clean other proxyFor =>
    obtain ⟨d', same, key, noProxy, -⟩ := wf k t here
    obtain rfl : d' = d := by simpa [stored] using same.symm
    have kept : (s.setEntry r e').entry t = some d' := by
      rw [entry_setEntry s clean.entry, if_neg other, stored]
    refine ⟨t, ⟨upd d'.mapEntry, d'.proxyFor⟩, here, by rw [entry_setEntry _ kept, if_pos rfl], noProxy,
      ?_, updates.mark _, ?_⟩
    · rw [updates.key, key]
    · rw [view_stored wf here stored, updates.shown]

variable (h : Mutated upd s k r s')
include h

theorem frame (wf : s.WellFormed) (other : k' ≠ k) :
    s'.dirty.lookup k' = s.dirty.lookup k' ∧ ∀ t, s.dirty.lookup k' = some t → s'.entry t = s.entry t := by
  have distinct : ∀ t d, s.entry t = some d → d.mapEntry.key = k →
      ∀ t', s.dirty.lookup k' = some t' → t' ≠ t := by
    intro t d entry key t' here same
    obtain ⟨d', entry', key', -⟩ := wf k' t' here
    rw [same, entry] at entry'
    obtain rfl : d = d' := by simpa using entry'
    exact other (key'.symm.trans key)
  cases h with
  | own e here entry =>
    obtain ⟨e', same, key, -⟩ := wf k r here
    obtain rfl : e' = e := by simpa [entry] using same.symm
    refine ⟨rfl, fun t ht => ?_⟩
    rw [entry_setEntry s entry, if_neg (distinct r e' entry key t ht)]
  | becomes e free clean =>
    have entry : (s.store k r).entry r = some e := clean.entry
    refine ⟨by rw [setEntry_dirty, store_lookup, if_neg other], fun t ht => ?_⟩
    rw [entry_setEntry _ entry, if_neg (distinct r e clean.entry clean.key t ht), store_entry]
  | redirected e e' d t here stored clean apart proxyFor =>
    obtain ⟨d', same, key, -⟩ := wf k t here
    obtain rfl : d' = d := by simpa [stored] using same.symm
    have kept : (s.setEntry r e').entry t = some d' := by
      rw [entry_setEntry s clean.entry, if_neg apart, stored]
    refine ⟨rfl, fun t' ht => ?_⟩
    rw [entry_setEntry _ kept, if_neg (distinct t d' stored key t' ht), entry_setEntry s clean.entry,
      if_neg (distinct r e clean.entry clean.key t' ht)]

theorem wellFormed (updates : Updates upd effect) (wf : s.WellFormed) : s'.WellFormed := by
  intro k' t here
  by_cases same : k' = k
  · subst same
    obtain ⟨t', d, here', entry, noProxy, key, mark, -⟩ := h.stored updates wf
    obtain rfl : t' = t := by simpa [here] using here'.symm
    exact ⟨d, entry, key, noProxy, mark⟩
  · obtain ⟨lookup, entries⟩ := h.frame wf same
    rw [lookup] at here
    rw [entries t here]
    exact wf k' t here

theorem view_eq (updates : Updates upd effect) (wf : s.WellFormed) (k' : K) :
    s'.view k' = if k' = k then effect (s.view k) else s.view k' := by
  split
  · rename_i same
    subst same
    obtain ⟨t, d, here, entry, -, -, -, shown⟩ := h.stored updates wf
    rw [view_stored (h.wellFormed updates wf) here entry, shown]
  rename_i other
  obtain ⟨lookup, entries⟩ := h.frame wf other
  unfold view
  rw [lookup, h.base_eq]
  cases stored : s.dirty.lookup k' with
  | none => rfl
  | some t => simp only [Option.bind_some, entries t stored]

theorem holds (wf : s.WellFormed) (held : s.Holds k' h') : s'.Holds k' h' := by
  cases h with
  | own e here entry =>
    cases held with
    | stored here' => exact .stored here'
    | proxy p t entry' proxyFor here' =>
      by_cases same : h' = r
      · subst same
        obtain rfl : p = e := by simpa [entry] using entry'.symm
        exact .proxy ⟨upd p.mapEntry, p.proxyFor⟩ t (by rw [entry_setEntry s entry, if_pos rfl]) proxyFor here'
      · exact .proxy p t (by rw [entry_setEntry s entry, if_neg same, entry']) proxyFor here'
    | clean p clean =>
      by_cases same : h' = r
      · subst same
        obtain ⟨q, stored, key, -, -⟩ := wf k h' here
        obtain rfl : k' = k := by
          rw [← clean.key, ← key]
          rw [clean.entry] at stored
          cases stored
          rfl
        exact .stored here
      · exact .clean p { clean with entry := by rw [entry_setEntry s entry, if_neg same, clean.entry] }
  | becomes e free clean =>
    have entry : (s.store k r).entry r = some e := clean.entry
    have look : ∀ t, s.dirty.lookup k' = some t → (s.store k r).dirty.lookup k' = some t := by
      intro t ht
      have other : k' ≠ k := by
        rintro rfl
        rw [free] at ht
        cases ht
      rw [store_lookup, if_neg other, ht]
    cases held with
    | stored here' => exact .stored (look _ here')
    | proxy p t entry' proxyFor here' =>
      have apart : h' ≠ r := by
        rintro rfl
        have same := clean.entry.symm.trans entry'
        cases same
        simp [clean.noProxy] at proxyFor
      exact .proxy p t (by rw [entry_setEntry _ entry, if_neg apart, store_entry, entry']) proxyFor
        (look _ here')
    | clean p clean' =>
      by_cases same : h' = r
      · subst same
        have equal := clean.entry.symm.trans clean'.entry
        cases equal
        obtain rfl : k = k' := clean.key.symm.trans clean'.key
        exact .stored (by rw [setEntry_dirty, store_lookup, if_pos rfl])
      · exact .clean p { clean' with
          entry := by rw [entry_setEntry _ entry, if_neg same, store_entry, clean'.entry] }
  | redirected e e' d t here stored clean apart proxyTo =>
    have kept : (s.setEntry r e').entry t = some d := by
      rw [entry_setEntry s clean.entry, if_neg apart, stored]
    have entryOf : ∀ x, ((s.setEntry r e').setEntry t ⟨upd d.mapEntry, d.proxyFor⟩).entry x =
        if x = t then some ⟨upd d.mapEntry, d.proxyFor⟩ else if x = r then some e' else s.entry x := by
      intro x
      rw [entry_setEntry _ kept, entry_setEntry s clean.entry]
    cases held with
    | stored here' => exact .stored here'
    | proxy p t' entry' proxyFor here' =>
      by_cases atT : h' = t
      · subst atT
        obtain rfl : p = d := by simpa [stored] using entry'.symm
        exact .proxy ⟨upd p.mapEntry, p.proxyFor⟩ t' (by rw [entryOf, if_pos rfl]) proxyFor here'
      have notR : h' ≠ r := by
        rintro rfl
        have same := clean.entry.symm.trans entry'
        cases same
        simp [clean.noProxy] at proxyFor
      exact .proxy p t' (by rw [entryOf, if_neg atT, if_neg notR, entry']) proxyFor here'
    | clean p clean' =>
      by_cases atT : h' = t
      · subst atT
        obtain ⟨q, stored', key, -, -⟩ := wf k h' here
        have equal := stored'.symm.trans clean'.entry
        cases equal
        obtain rfl : k = k' := key.symm.trans clean'.key
        exact .stored here
      by_cases atR : h' = r
      · subst atR
        have equal := clean.entry.symm.trans clean'.entry
        cases equal
        obtain rfl : k = k' := clean.key.symm.trans clean'.key
        exact .proxy e' t (by rw [entryOf, if_neg atT, if_pos rfl]) proxyTo here
      · exact .clean p { clean' with entry := by rw [entryOf, if_neg atT, if_neg atR, clean'.entry] }

theorem bystander (wf : s.WellFormed) (clean : s.Clean k' h' e') (other : h' ≠ r) : s'.Clean k' h' e' := by
  refine { clean with entry := ?_, base := by rw [h.base_eq, clean.base] }
  cases h with
  | own e here entry => rw [entry_setEntry s entry, if_neg other, clean.entry]
  | becomes e free own =>
    have entry : (s.store k r).entry r = some e := own.entry
    rw [entry_setEntry _ entry, if_neg other, store_entry, clean.entry]
  | redirected e p d t here stored own apart proxyFor =>
    have kept : (s.setEntry r p).entry t = some d := by
      rw [entry_setEntry s own.entry, if_neg apart, stored]
    have notStored : h' ≠ t := by
      rintro rfl
      obtain ⟨d', stored', -, -, mark⟩ := wf k h' here
      rw [clean.entry] at stored'
      cases stored'
      simp [clean.notDirty, clean.notDeleted] at mark
    rw [entry_setEntry _ kept, if_neg notStored, entry_setEntry s own.entry, if_neg other, clean.entry]

theorem clean_before (updates : Updates upd effect) (clean : s'.Clean k' h' e') : s.Clean k' h' e' ∧ h' ≠ r := by
  have unmarked : ∀ e : SyncMapEntry K V, e' ≠ ⟨upd e.mapEntry, e.proxyFor⟩ := by
    rintro e rfl
    have mark := updates.mark e.mapEntry
    have notDirty := clean.notDirty
    have notDeleted := clean.notDeleted
    simp_all
  have here := clean.entry
  have base : s.base.lookup k' = some e'.mapEntry.value := by rw [← h.base_eq, clean.base]
  cases h with
  | own e stored entry =>
    rw [entry_setEntry s entry] at here
    split at here
    · exact absurd (Option.some.inj here).symm (unmarked e)
    · rename_i other
      exact ⟨{ clean with entry := here, base := base }, other⟩
  | becomes e free own =>
    have entry : (s.store k r).entry r = some e := own.entry
    rw [entry_setEntry _ entry] at here
    split at here
    · exact absurd (Option.some.inj here).symm (unmarked e)
    · rename_i other
      exact ⟨{ clean with entry := here, base := base }, other⟩
  | redirected e p d t stored live own apart proxyFor =>
    have kept : (s.setEntry r p).entry t = some d := by
      rw [entry_setEntry s own.entry, if_neg apart, live]
    rw [entry_setEntry _ kept] at here
    split at here
    · exact absurd (Option.some.inj here).symm (unmarked d)
    rw [entry_setEntry s own.entry] at here
    split at here
    · cases here
      simp [clean.noProxy] at proxyFor
    · rename_i other
      exact ⟨{ clean with entry := here, base := base }, other⟩

end Mutated

/-- What `change` does to the dirty entry. -/
def changed (apply : V → V) (e : MapEntry K V) : MapEntry K V :=
  { e with dirty := true, value := apply e.value }

def deleted (e : MapEntry K V) : MapEntry K V := { e with delete := true }

omit [DecidableEq K] in
theorem changed_updates (apply : V → V) :
    Updates (changed (K := K) apply) (Option.map apply) where
  key _ := rfl
  mark _ := .inl rfl
  shown e := by
    unfold MapEntry.shown changed
    cases e.delete <;> rfl

omit [DecidableEq K] in
theorem deleted_updates : Updates (deleted (K := K) (V := V)) (fun _ => none) where
  key _ := rfl
  mark _ := .inr rfl
  shown _ := rfl

variable {s : SyncMap K V} {k : K} {h : Nat}

theorem changeLocked_mutated (wf : s.WellFormed) (apply : V → V) (ready : s.dirty.lookup k = some h ∨ ∃ e, s.Clean k h e) :
    Mutated (changed apply) s k h (s.changeLocked h apply) := by
  rcases ready with here | ⟨e, clean⟩
  · obtain ⟨e, entry, key, -, -⟩ := wf k h here
    have step : s.changeLocked h apply = s.setEntry h ⟨changed apply e.mapEntry, e.proxyFor⟩ := by
      rw [changeLocked, entry]
      cases dirty : e.mapEntry.dirty <;>
        simp [dirty, key, dirtyLoadOrStore_some here, changed]
    rw [step]
    exact .own e here entry
  cases stored : s.dirty.lookup k with
  | none =>
    have step : s.changeLocked h apply =
        (s.store k h).setEntry h ⟨changed apply e.mapEntry, e.proxyFor⟩ := by
      rw [changeLocked, clean.entry]
      simp [clean.notDirty, clean.key, dirtyLoadOrStore_none stored, changed]
    rw [step]
    exact .becomes e stored clean
  | some t =>
    by_cases own : t = h
    · subst own
      have step : s.changeLocked t apply = s.setEntry t ⟨changed apply e.mapEntry, e.proxyFor⟩ := by
        rw [changeLocked, clean.entry]
        simp [clean.notDirty, clean.key, dirtyLoadOrStore_some stored, changed]
      rw [step]
      exact .own e stored clean.entry
    obtain ⟨d, entry, -, -, -⟩ := wf k t stored
    have step : s.changeLocked h apply = (s.setEntry h { e with
          proxyFor := some t, mapEntry.value := d.mapEntry.value, mapEntry.dirty := true,
          mapEntry.delete := d.mapEntry.delete }).setEntry t ⟨changed apply d.mapEntry, d.proxyFor⟩ := by
      rw [changeLocked, clean.entry]
      simp [clean.notDirty, clean.key, dirtyLoadOrStore_some stored, changed, own, entry]
    rw [step]
    exact .redirected e _ d t stored entry clean own rfl

theorem deleteLocked_mutated (wf : s.WellFormed) (ready : s.dirty.lookup k = some h ∨ ∃ e, s.Clean k h e) :
    Mutated deleted s k h (s.deleteLocked h) := by
  rcases ready with here | ⟨e, clean⟩
  · obtain ⟨e, entry, key, -, -⟩ := wf k h here
    have step : s.deleteLocked h = s.setEntry h ⟨deleted e.mapEntry, e.proxyFor⟩ := by
      rw [deleteLocked, entry]
      cases dirty : e.mapEntry.dirty <;>
        simp [dirty, key, dirtyLoadOrStore_some here, deleted]
    rw [step]
    exact .own e here entry
  cases stored : s.dirty.lookup k with
  | none =>
    have step : s.deleteLocked h = (s.store k h).setEntry h ⟨deleted e.mapEntry, e.proxyFor⟩ := by
      rw [deleteLocked, clean.entry]
      simp [clean.notDirty, clean.key, dirtyLoadOrStore_none stored, deleted]
    rw [step]
    exact .becomes e stored clean
  | some t =>
    by_cases own : t = h
    · subst own
      have step : s.deleteLocked t = s.setEntry t ⟨deleted e.mapEntry, e.proxyFor⟩ := by
        rw [deleteLocked, clean.entry]
        simp [clean.notDirty, clean.key, dirtyLoadOrStore_some stored, deleted]
      rw [step]
      exact .own e stored clean.entry
    obtain ⟨d, entry, -, -, -⟩ := wf k t stored
    have step : s.deleteLocked h = (s.setEntry h { e with
          proxyFor := some t, mapEntry.value := d.mapEntry.value, mapEntry.delete := true,
          mapEntry.dirty := d.mapEntry.dirty }).setEntry t ⟨deleted d.mapEntry, d.proxyFor⟩ := by
      rw [deleteLocked, clean.entry]
      simp [clean.notDirty, clean.key, dirtyLoadOrStore_some stored, deleted, own, entry]
    rw [step]
    exact .redirected e _ d t stored entry clean own rfl

theorem change_mutated (wf : s.WellFormed) (apply : V → V) (holds : s.Holds k h) :
    Mutated (changed apply) s k (s.target h) (s.change h apply) := by
  refine changeLocked_mutated wf apply ?_
  rcases target_cases wf holds with here | ⟨e, same, clean⟩
  · exact .inl here
  · exact .inr ⟨e, same.symm ▸ clean⟩

theorem deleteEntry_mutated (wf : s.WellFormed) (holds : s.Holds k h) : Mutated deleted s k (s.target h) (s.deleteEntry h) := by
  refine deleteLocked_mutated wf ?_
  rcases target_cases wf holds with here | ⟨e, same, clean⟩
  · exact .inl here
  · exact .inr ⟨e, same.symm ▸ clean⟩

end TypeScriptRs.Dirty.SyncMap
