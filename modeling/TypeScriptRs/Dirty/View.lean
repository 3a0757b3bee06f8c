import TypeScriptRs.Dirty.SyncMap

/-! What a map with an overlay shows for each key, and what a call through a handle
does to it. -/
namespace TypeScriptRs.Dirty

variable {K V : Type}

/-- The value an entry shows when it is the dirty entry of its key. -/
def MapEntry.shown (e : MapEntry K V) : Option V := if e.delete then none else some e.value

namespace SyncMap

section
variable (s : SyncMap K V) {h : Nat} {e old : SyncMapEntry K V}

@[simp] theorem setEntry_dirty (h : Nat) (e : SyncMapEntry K V) : (s.setEntry h e).dirty = s.dirty := rfl

theorem entry_bound (here : s.entry h = some e) : h < s.entries.length := by
  by_contra past
  rw [entry, List.getElem?_eq_none (not_lt.mp past)] at here
  cases here

theorem entry_setEntry (here : s.entry h = some old) (h' : Nat) (e : SyncMapEntry K V) :
    (s.setEntry h e).entry h' = if h' = h then some e else s.entry h' := by
  have bound := entry_bound s here
  simp only [entry, setEntry, List.getElem?_set, bound, if_true, eq_comm]

theorem entry_newSyncMapEntryArc (here : s.entry h = some old)
    (e : MapEntry K V) : (s.newSyncMapEntryArc e).2.entry h = some old := by
  have bound := entry_bound s here
  simp only [entry, newSyncMapEntryArc, List.getElem?_append_left bound]
  exact here

theorem entry_newSyncMapEntryArc_self (e : MapEntry K V) :
    (s.newSyncMapEntryArc e).2.entry (s.newSyncMapEntryArc e).1 = some ⟨e, none⟩ := by
  simp [entry, newSyncMapEntryArc]

theorem route_self (fuel : Nat) (entry : s.entry h = some e) (noProxy : e.proxyFor = none) : s.route fuel h = h := by
  cases fuel with
  | zero => rfl
  | succ fuel => simp [route, entry, noProxy]
end

variable [DecidableEq K]

@[simp] theorem store_entry (s : SyncMap K V) (k : K) (h h' : Nat) :
    (s.store k h).entry h' = s.entry h' := rfl

theorem dirtyLoadOrStore_some {s : SyncMap K V} {k : K} {t : Nat} (here : s.dirty.lookup k = some t)
    (h : Nat) : s.dirtyLoadOrStore k h = (t, s) := by
  simp [dirtyLoadOrStore, here]

theorem dirtyLoadOrStore_none {s : SyncMap K V} {k : K} (free : s.dirty.lookup k = none) (h : Nat) :
    s.dirtyLoadOrStore k h = (h, s.store k h) := by
  simp [dirtyLoadOrStore, free]

theorem store_lookup (s : SyncMap K V) (k k' : K) (h : Nat) :
    (s.store k h).dirty.lookup k' = if k' = k then some h else s.dirty.lookup k' :=
  HashMap.lookup_insert_if _ _ _ _

def view (s : SyncMap K V) (k : K) : Option V :=
  match (s.dirty.lookup k).bind s.entry with
  | none => s.base.lookup k
  | some e =>
    if e.mapEntry.delete then none
    else if e.mapEntry.dirty then some e.mapEntry.value
    else s.base.lookup k

section
variable (s : SyncMap K V) (acc : Finalized K V) (key : K) (copy : acc.changed = false → acc.result = s.base)
include s acc key copy

theorem finalizeEntry_lookup (untouched : acc.result.lookup key = s.base.lookup key) (k : K) :
    (s.finalizeEntry acc key).result.lookup k =
      if k = key then s.view key else acc.result.lookup k := by
  have copied : (if acc.changed then acc.result else s.base) = acc.result := by
    split
    · rfl
    · rename_i h
      exact (copy (by simpa using h)).symm
  have same : acc.result.lookup k =
      if k = key then s.base.lookup key else acc.result.lookup k := by
    split
    · rename_i h
      rw [h, untouched]
    · rfl
  unfold finalizeEntry view
  cases (s.dirty.lookup key).bind s.entry with
  | none => exact same
  | some e =>
    simp only [copied]
    split
    · exact HashMap.lookup_erase_if _ _ _
    · split
      · exact HashMap.lookup_insert_if _ _ _ _
      · exact same

theorem finalizeEntry_copy : (s.finalizeEntry acc key).changed = false → (s.finalizeEntry acc key).result = s.base := by
  unfold finalizeEntry
  cases (s.dirty.lookup key).bind s.entry with
  | none => exact copy
  | some e =>
    dsimp only
    split
    · simp
    · split
      · simp
      · exact copy
end

theorem foldl_finalizeEntry (s : SyncMap K V) (order : List K) : ∀ acc : Finalized K V,
    (acc.changed = false → acc.result = s.base) → order.Nodup →
    (∀ k ∈ order, acc.result.lookup k = s.base.lookup k) → ∀ k,
    (order.foldl s.finalizeEntry acc).result.lookup k =
      if k ∈ order then s.view k else acc.result.lookup k := by
  induction order with
  | nil =>
    intro acc _ _ _ k
    simp
  | cons key order ih =>
    intro acc copy nodup untouched k
    obtain ⟨fresh, rest⟩ := List.nodup_cons.mp nodup
    have first := finalizeEntry_lookup s acc key copy (untouched key (by simp))
    have later : ∀ k ∈ order, (s.finalizeEntry acc key).result.lookup k = s.base.lookup k := by
      intro k member
      have other : k ≠ key := fun h => fresh (h ▸ member)
      rw [first, if_neg other, untouched k (by simp [member])]
    rw [List.foldl_cons, ih _ (finalizeEntry_copy s acc key copy) rest later k, first]
    by_cases here : k = key
    · subst here
      simp [fresh]
    · simp [here]

theorem finalize_lookup (s : SyncMap K V) {order : List K} (enumerated : HashMap.Enumerates order s.dirty)
    (k : K) : (s.finalize order).1.lookup k = s.view k := by
  rw [finalize, finalizeWith, foldl_finalizeEntry s order ⟨s.base, false, []⟩ (fun _ => rfl) enumerated.1
    (fun _ _ => rfl) k]
  split
  · rfl
  rename_i absent
  have missing : s.dirty.lookup k = none := by
    rw [Finmap.lookup_eq_none, ← enumerated.2 k]
    exact absent
  simp [view, missing]

/-- The table of dirty entries holds entries that stand for themselves and differ
from the base. -/
def WellFormed (s : SyncMap K V) : Prop :=
  ∀ k h, s.dirty.lookup k = some h → ∃ e, s.entry h = some e ∧ e.mapEntry.key = k ∧
    e.proxyFor = none ∧ (e.mapEntry.dirty = true ∨ e.mapEntry.delete = true)

/-- An entry that shows the base value and has never been changed. -/
structure Clean (s : SyncMap K V) (k : K) (h : Nat) (e : SyncMapEntry K V) : Prop where
  entry : s.entry h = some e
  key : e.mapEntry.key = k
  noProxy : e.proxyFor = none
  notDirty : e.mapEntry.dirty = false
  notDeleted : e.mapEntry.delete = false
  base : s.base.lookup k = some e.mapEntry.value

/-- A handle of a key: its dirty entry, a proxy for it, or a clean entry. -/
inductive Holds (s : SyncMap K V) (k : K) (h : Nat) : Prop
  | stored (here : s.dirty.lookup k = some h)
  | proxy (e : SyncMapEntry K V) (t : Nat) (entry : s.entry h = some e) (proxyFor : e.proxyFor = some t)
      (here : s.dirty.lookup k = some t)
  | clean (e : SyncMapEntry K V) (clean : s.Clean k h e)

variable {s : SyncMap K V} {k : K} {h : Nat} {e : SyncMapEntry K V}

theorem target_stored (wf : s.WellFormed) (here : s.dirty.lookup k = some h) : s.target h = h := by
  obtain ⟨e, entry, -, noProxy, -⟩ := wf k h here
  exact route_self s _ entry noProxy

theorem target_proxy (wf : s.WellFormed) {t : Nat} (entry : s.entry h = some e)
    (proxyFor : e.proxyFor = some t) (here : s.dirty.lookup k = some t) : s.target h = t := by
  obtain ⟨d, stored, -, noProxy, -⟩ := wf k t here
  unfold target
  cases size : s.entries.length with
  | zero => exact absurd (entry_bound s entry) (by omega)
  | succ fuel =>
    simp only [route, entry, Option.bind_some, proxyFor]
    exact route_self s fuel stored noProxy

theorem target_cases (wf : s.WellFormed) (holds : s.Holds k h) :
    s.dirty.lookup k = some (s.target h) ∨ ∃ e, s.target h = h ∧ s.Clean k h e := by
  cases holds with
  | stored here => exact .inl (by rw [target_stored wf here, here])
  | proxy e t entry proxyFor here => exact .inl (by rw [target_proxy wf entry proxyFor here, here])
  | clean e clean => exact .inr ⟨e, route_self s _ clean.entry clean.noProxy, clean⟩

theorem view_stored (wf : s.WellFormed) (here : s.dirty.lookup k = some h)
    (entry : s.entry h = some e) : s.view k = e.mapEntry.shown := by
  obtain ⟨d, same, -, -, mark⟩ := wf k h here
  obtain rfl : d = e := by simpa [entry] using same.symm
  simp only [view, here, Option.bind_some, entry, MapEntry.shown]
  split
  · rfl
  · rename_i kept
    rw [if_pos (mark.resolve_right kept)]

theorem view_none (here : s.dirty.lookup k = none) : s.view k = s.base.lookup k := by
  simp [view, here]

theorem Clean.shown (clean : s.Clean k h e) : e.mapEntry.shown = s.base.lookup k := by
  simp [MapEntry.shown, clean.notDeleted, clean.base]

end SyncMap

end TypeScriptRs.Dirty
