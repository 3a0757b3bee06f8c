import TypeScriptRs.Lib.Run
import TypeScriptRs.Dirty.Mutation

/-! Runs of a client that holds handles, compared with the same run on an ordinary map. -/
namespace TypeScriptRs.Dirty
open SyncMap

variable {K V : Type} [DecidableEq K]

/-- The calls of a client. A handle is named by the position at which the client got it. -/
inductive Op (K V : Type) where
  | load (key : K)
  | change (handle : Nat) (apply : V → V)
  | changeIf (handle : Nat) (cond : V → Bool) (apply : V → V)
  | deleteEntry (handle : Nat)
  | delete (key : K)
  | loadOrStore (key : K) (value : V)

structure Client (K V : Type) where
  map : SyncMap K V
  handles : List Nat

/-- The answer of a call: whether `load` found the key, the `loaded` of `load_or_store`. -/
abbrev Answer := Option Bool

namespace Client

def start (base : HashMap K V) : Client K V := ⟨newSyncMap base, []⟩

/-- A call through a handle; nothing happens through one the client does not have. -/
def through (c : Client K V) (handle : Nat) (call : Nat → SyncMap K V) : Client K V × Answer :=
  match c.handles[handle]? with
  | some h => (⟨call h, c.handles⟩, none)
  | none => (c, none)

def step [Inhabited V] (c : Client K V) : Op K V → Client K V × Answer
  | .load key =>
    match c.map.load key with
    | (some h, map) => (⟨map, c.handles ++ [h]⟩, some true)
    | (none, map) => (⟨map, c.handles⟩, some false)
  | .change i apply => c.through i fun h => c.map.change h apply
  | .changeIf i cond apply => c.through i fun h => (c.map.changeIf h cond apply).2
  | .deleteEntry i => c.through i fun h => c.map.deleteEntry h
  | .delete key => (⟨c.map.delete key, c.handles⟩, none)
  | .loadOrStore key value =>
    let (fresh, map) := c.map.newEntry key value
    let ((h, loaded), map) := map.loadOrStore key fresh
    (⟨map, c.handles ++ [h]⟩, some loaded)

end Client

/-- An ordinary map, with the key of each handle the client has got. -/
structure Plain (K V : Type) where
  map : HashMap K V
  handles : List K

namespace Plain

def through (p : Plain K V) (handle : Nat) (effect : Option V → Option V) : Plain K V × Answer :=
  match p.handles[handle]? with
  | some key => (⟨p.map.alter key effect, p.handles⟩, none)
  | none => (p, none)

def step (p : Plain K V) : Op K V → Plain K V × Answer
  | .load key =>
    match p.map.lookup key with
    | some _ => (⟨p.map, p.handles ++ [key]⟩, some true)
    | none => (p, some false)
  | .change i apply => p.through i (Option.map apply)
  | .changeIf i cond apply => p.through i (Option.map fun v => if cond v then apply v else v)
  | .deleteEntry i => p.through i fun _ => none
  | .delete key => (⟨p.map.erase key, p.handles⟩, none)
  | .loadOrStore key value =>
    match p.map.lookup key with
    | some _ => (⟨p.map, p.handles ++ [key]⟩, some true)
    | none => (⟨p.map.insert key value, p.handles ++ [key]⟩, some false)

end Plain

namespace SyncMap

/-- A condition read from the handle's own entry decides as on the dirty entry of the
key, or deciding wrongly makes no difference there. -/
def Agrees (s : SyncMap K V) (h : Nat) (cond : V → Bool) (apply : V → V) : Prop :=
  ∀ e d t, s.entry (s.target h) = some e → s.dirty.lookup e.mapEntry.key = some t →
    s.entry t = some d → d.mapEntry.delete = false →
    cond e.mapEntry.value = cond d.mapEntry.value ∨ apply d.mapEntry.value = d.mapEntry.value

def NotDeleted (s : SyncMap K V) (key : K) : Prop :=
  ∀ h, s.dirty.lookup key = some h → s.isDeleted h = false

end SyncMap

def Permits (c : Client K V) : Op K V → Prop
  | .changeIf i cond apply => ∀ h, c.handles[i]? = some h → c.map.Agrees h cond apply
  | .loadOrStore key _ => c.map.NotDeleted key
  | _ => True

structure Refines (c : Client K V) (p : Plain K V) : Prop where
  wellFormed : c.map.WellFormed
  view : ∀ k, c.map.view k = p.map.lookup k
  handles : List.Forall₂ (fun h k => c.map.Holds k h) c.handles p.handles

variable {c : Client K V} {p : Plain K V} {k : K} {h : Nat} {effect : Option V → Option V} {s' s : SyncMap K V}

theorem Refines.handle (r : Refines c p) (i : Nat) : (∃ h k, c.handles[i]? = some h ∧ p.handles[i]? = some k ∧ c.map.Holds k h) ∨
      (c.handles[i]? = none ∧ p.handles[i]? = none) := by
  have length := r.handles.length_eq
  by_cases bound : i < c.handles.length
  · refine .inl ⟨c.handles[i], p.handles[i], by simp [bound], by simp [← length, bound], ?_⟩
    exact List.Forall₂.get r.handles bound (length ▸ bound)
  · exact .inr ⟨by simp [not_lt.mp bound], by simp [← length, not_lt.mp bound]⟩

theorem Refines.mutated (r : Refines c p) {upd : MapEntry K V → MapEntry K V}
    (updates : Updates upd effect) (m : Mutated upd c.map k h s') :
    Refines ⟨s', c.handles⟩ ⟨p.map.alter k effect, p.handles⟩ where
  wellFormed := m.wellFormed updates r.wellFormed
  view k' := by
    rw [m.view_eq updates r.wellFormed, HashMap.lookup_alter, r.view, r.view]
  handles := r.handles.imp fun _ _ held => m.holds r.wellFormed held

theorem Refines.unchanged (r : Refines c p) (same : effect (p.map.lookup k) = p.map.lookup k) :
    Refines c ⟨p.map.alter k effect, p.handles⟩ where
  wellFormed := r.wellFormed
  view k' := by
    rw [HashMap.lookup_alter, same, r.view]
    split
    · rename_i here
      rw [here]
    · rfl
  handles := r.handles

/-- A state with further entries that no table and no handle knows yet. -/
structure Extends (s s' : SyncMap K V) : Prop where
  base : s'.base = s.base
  dirty : s'.dirty = s.dirty
  entries : ∀ h e, s.entry h = some e → s'.entry h = some e

omit [DecidableEq K] in
theorem newSyncMapEntryArc_extends (s : SyncMap K V) (e : MapEntry K V) : Extends s (s.newSyncMapEntryArc e).2 :=
  ⟨rfl, rfl, fun _ _ here => entry_newSyncMapEntryArc s here e⟩

theorem Extends.holds (ext : Extends s s') (held : s.Holds k h) : s'.Holds k h := by
  cases held with
  | stored here => exact .stored (by rw [ext.dirty, here])
  | proxy e t entry proxyFor here => exact .proxy e t (ext.entries h e entry) proxyFor (by rw [ext.dirty, here])
  | clean e clean => exact .clean e { clean with entry := ext.entries h e clean.entry, base := by rw [ext.base, clean.base] }

theorem Refines.extends (r : Refines c p) (ext : Extends c.map s') : Refines ⟨s', c.handles⟩ p where
  wellFormed k h here := by
    rw [ext.dirty] at here
    obtain ⟨e, entry, rest⟩ := r.wellFormed k h here
    exact ⟨e, ext.entries h e entry, rest⟩
  view k := by
    rw [← r.view k]
    unfold SyncMap.view
    rw [ext.dirty, ext.base]
    cases stored : c.map.dirty.lookup k with
    | none => rfl
    | some h =>
      obtain ⟨e, entry, -⟩ := r.wellFormed k h stored
      simp only [Option.bind_some, entry, ext.entries h e entry]
  handles := r.handles.imp fun _ _ held => ext.holds held

theorem Refines.store (r : Refines c p)
    {e : MapEntry K V} (free : c.map.dirty.lookup k = none) (entry : c.map.entry h = some ⟨e, none⟩)
    (key : e.key = k) (mark : e.dirty = true ∨ e.delete = true) :
    Refines ⟨c.map.store k h, c.handles⟩ ⟨p.map.alter k fun _ => e.shown, p.handles⟩ := by
  have wf : (c.map.store k h).WellFormed := by
    intro k' h' here
    rw [store_lookup] at here
    split at here
    · rename_i same
      cases here
      exact ⟨_, entry, key.trans same.symm, rfl, mark⟩
    · exact r.wellFormed k' h' here
  have kept : ∀ {k' : K} {t : Nat}, c.map.dirty.lookup k' = some t →
      (c.map.store k h).dirty.lookup k' = some t := by
    intro k' t here
    have other : k' ≠ k := by
      rintro rfl
      rw [free] at here
      cases here
    rw [store_lookup, if_neg other, here]
  refine ⟨wf, fun k' => ?_, r.handles.imp fun h' k' held => ?_⟩
  · rw [HashMap.lookup_alter]
    split
    · rename_i same
      subst same
      exact view_stored wf (by rw [store_lookup, if_pos rfl]) entry
    rename_i other
    rw [← r.view k']
    unfold SyncMap.view
    rw [store_lookup, if_neg other]
    rfl
  · cases held with
    | stored here => exact .stored (kept here)
    | proxy e' t entry' proxyFor here => exact .proxy e' t entry' proxyFor (kept here)
    | clean e' clean => exact .clean e' { clean with }

theorem Refines.receive (r : Refines c p)
    (held : c.map.Holds k h) : Refines ⟨c.map, c.handles ++ [h]⟩ ⟨p.map, p.handles ++ [k]⟩ :=
  { r with handles := List.rel_append r.handles (.cons held .nil) }

theorem Refines.lookup_stored (r : Refines c p) (here : c.map.dirty.lookup k = some h) :
    if c.map.isDeleted h then p.map.lookup k = none else ∃ v, p.map.lookup k = some v := by
  obtain ⟨e, entry, -⟩ := r.wellFormed k h here
  rw [← r.view k, view_stored r.wellFormed here entry]
  simp only [isDeleted, entry, MapEntry.shown]
  split
  · rfl
  · exact ⟨_, rfl⟩

theorem newSyncMapEntryArc_holds {v : V} (base : s.base.lookup k = some v) :
    (s.newSyncMapEntryArc ⟨k, v, v, false, false⟩).2.Holds k (s.newSyncMapEntryArc ⟨k, v, v, false, false⟩).1 :=
  .clean _ ⟨entry_newSyncMapEntryArc_self s _, rfl, rfl, rfl, rfl, base⟩

section
variable {c : Client K V} {p : Plain K V}

def Matches [Inhabited V] (c : Client K V) (p : Plain K V) (op : Op K V) : Prop :=
  Refines (c.step op).1 (p.step op).1 ∧ (c.step op).2 = (p.step op).2

theorem through_matches (r : Refines c p) (i : Nat) {call : Nat → SyncMap K V} {effect : Option V → Option V}
    (each : ∀ h k, c.handles[i]? = some h → c.map.Holds k h →
      Refines ⟨call h, c.handles⟩ ⟨p.map.alter k effect, p.handles⟩) :
    Refines (c.through i call).1 (p.through i effect).1 ∧
      (c.through i call).2 = (p.through i effect).2 := by
  unfold Client.through Plain.through
  rcases r.handle i with ⟨h, k, hc, hp, held⟩ | ⟨hc, hp⟩
  · rw [hc, hp]
    exact ⟨each h k hc held, rfl⟩
  · rw [hc, hp]
    exact ⟨r, rfl⟩

variable [Inhabited V]

theorem load_matches (r : Refines c p) (k : K) : Matches c p (.load k) := by
  cases stored : c.map.dirty.lookup k with
  | some h =>
    have value := r.lookup_stored stored
    cases deleted : c.map.isDeleted h with
    | true =>
      rw [deleted, if_pos rfl] at value
      have result : c.map.load k = (none, c.map) := by simp [SyncMap.load, stored, deleted]
      simp only [Matches, Client.step, Plain.step, result, value]
      exact ⟨r, trivial⟩
    | false =>
      rw [deleted, if_neg (by simp)] at value
      obtain ⟨v, value⟩ := value
      have result : c.map.load k = (some h, c.map) := by simp [SyncMap.load, stored, deleted]
      simp only [Matches, Client.step, Plain.step, result, value]
      exact ⟨r.receive (.stored stored), trivial⟩
  | none =>
    have value : p.map.lookup k = c.map.base.lookup k := by rw [← r.view, view_none stored]
    cases base : c.map.base.lookup k with
    | some v =>
      have result : c.map.load k = (some (c.map.newSyncMapEntryArc ⟨k, v, v, false, false⟩).1,
          (c.map.newSyncMapEntryArc ⟨k, v, v, false, false⟩).2) := by
        simp [SyncMap.load, stored, base]
      simp only [Matches, Client.step, Plain.step, result, value, base]
      exact ⟨(r.extends (newSyncMapEntryArc_extends _ _)).receive (newSyncMapEntryArc_holds base), trivial⟩
    | none =>
      have result : c.map.load k = (none, c.map) := by simp [SyncMap.load, stored, base]
      simp only [Matches, Client.step, Plain.step, result, value, base]
      exact ⟨r, trivial⟩

theorem changeIf_matches (r : Refines c p) (i : Nat) (cond : V → Bool) (apply : V → V)
    (agrees : ∀ h, c.handles[i]? = some h → c.map.Agrees h cond apply) :
    Matches c p (.changeIf i cond apply) := by
  refine through_matches r i fun h k hc held => ?_
  have mutated := change_mutated r.wellFormed apply held
  -- The entry asked, and the value of the key on the ordinary map.
  obtain ⟨e, entry, verdict⟩ : ∃ e, c.map.entry (c.map.target h) = some e ∧
      ∀ v, p.map.lookup k = some v → cond e.mapEntry.value = cond v ∨ apply v = v := by
    have agree := agrees h hc
    rcases target_cases r.wellFormed held with here | ⟨e, same, clean⟩
    · obtain ⟨e, entry, key, -⟩ := r.wellFormed k _ here
      refine ⟨e, entry, fun v value => .inl ?_⟩
      rw [← r.view, view_stored r.wellFormed here entry, MapEntry.shown] at value
      split at value
      · cases value
      · cases value
        rfl
    refine ⟨e, same.symm ▸ clean.entry, fun v value => ?_⟩
    cases stored : c.map.dirty.lookup k with
    | none =>
      rw [← r.view, view_none stored, clean.base] at value
      cases value
      exact .inl rfl
    | some t =>
      obtain ⟨d, entry, -⟩ := r.wellFormed k t stored
      rw [← r.view, view_stored r.wellFormed stored entry, MapEntry.shown] at value
      split at value
      · cases value
      · rename_i kept
        cases value
        refine agree e d t (same.symm ▸ clean.entry) ?_ entry (by simpa using kept)
        rw [clean.key, stored]
  simp only [SyncMap.changeIf, entry]
  split
  · rename_i holds
    have effect : ∀ o : Option V, o = p.map.lookup k →
        o.map apply = o.map fun v => if cond v then apply v else v := by
      intro o value
      cases o with
      | none => rfl
      | some v =>
        rcases verdict v value.symm with same | still
        · simp [← same, holds]
        · simp [still]
    have step := r.mutated (changed_updates apply) mutated
    have same : p.map.alter k (Option.map apply) =
        p.map.alter k (Option.map fun v => if cond v then apply v else v) := by
      unfold HashMap.alter
      rw [effect _ rfl]
    exact same ▸ step
  · rename_i fails
    refine r.unchanged ?_
    cases value : p.map.lookup k with
    | none => rfl
    | some v =>
      rcases verdict v value with same | still
      · simp [← same, fails]
      · simp [still]

theorem delete_matches (r : Refines c p) (k : K) : Matches c p (.delete k) := by
  refine ⟨?_, rfl⟩
  let e : MapEntry K V := ⟨k, (c.map.base.lookup k).getD default, default, false, true⟩
  have grown := r.extends (newSyncMapEntryArc_extends c.map e)
  have erase : p.map.erase k = p.map.alter k fun _ => none := rfl
  simp only [Client.step, Plain.step, SyncMap.delete, erase]
  cases stored : (c.map.newSyncMapEntryArc e).2.dirty.lookup k with
  | some t =>
    rw [dirtyLoadOrStore_some stored]
    exact grown.mutated deleted_updates (deleteEntry_mutated grown.wellFormed (.stored stored))
  | none =>
    rw [dirtyLoadOrStore_none stored]
    exact grown.store stored (entry_newSyncMapEntryArc_self c.map e) rfl (.inr rfl)

theorem loadOrStore_matches (r : Refines c p) (k : K) (v : V) (kept : c.map.NotDeleted k) : Matches c p (.loadOrStore k v) := by
  let e : MapEntry K V := ⟨k, default, v, true, false⟩
  let grown := (c.map.newEntry k v).2
  let fresh := (c.map.newEntry k v).1
  have r' : Refines ⟨grown, c.handles⟩ p := r.extends (newSyncMapEntryArc_extends c.map e)
  have step : c.step (.loadOrStore k v) = (⟨(grown.loadOrStore k fresh).2,
      c.handles ++ [(grown.loadOrStore k fresh).1.1]⟩, some (grown.loadOrStore k fresh).1.2) := rfl
  cases stored : grown.dirty.lookup k with
  | some h =>
    have value := r'.lookup_stored stored
    have notDeleted : grown.isDeleted h = false := by
      obtain ⟨d, entry, -⟩ := r.wellFormed k h stored
      have same : grown.entry h = some d := entry_newSyncMapEntryArc c.map entry e
      rw [← kept h stored, isDeleted, isDeleted, entry, same]
    rw [notDeleted, if_neg (by simp)] at value
    obtain ⟨w, value⟩ := value
    have result : grown.loadOrStore k fresh = ((h, true), grown) := by
      unfold SyncMap.loadOrStore
      cases grown.base.lookup k <;> simp [stored, notDeleted]
    simp only [Matches, step, Plain.step, result, value]
    exact ⟨r'.receive (.stored stored), trivial⟩
  | none =>
    have value : p.map.lookup k = grown.base.lookup k := by rw [← r'.view, view_none stored]
    cases base : grown.base.lookup k with
    | some w =>
      have result : grown.loadOrStore k fresh =
          (((grown.newSyncMapEntryArc ⟨k, w, w, false, false⟩).1, true),
            (grown.newSyncMapEntryArc ⟨k, w, w, false, false⟩).2) := by
        simp [SyncMap.loadOrStore, stored, base]
      simp only [Matches, step, Plain.step, result, value, base]
      exact ⟨(r'.extends (newSyncMapEntryArc_extends _ _)).receive (newSyncMapEntryArc_holds base), trivial⟩
    | none =>
      have result : grown.loadOrStore k fresh = ((fresh, false), grown.store k fresh) := by
        simp [SyncMap.loadOrStore, stored, base]
      have added := r'.store stored (entry_newSyncMapEntryArc_self c.map e) rfl (.inl rfl)
      simp only [Matches, step, Plain.step, result, value, base]
      exact ⟨added.receive (.stored (store_lookup grown k k fresh |>.trans (if_pos rfl))), trivial⟩

theorem step_simulates : Run.Simulates (Client.step (K := K) (V := V)) Plain.step Permits Refines := by
  intro c p op r permitted
  cases op with
  | load k => exact load_matches r k
  | change i apply =>
    exact through_matches r i fun h k _ held =>
      r.mutated (changed_updates apply) (change_mutated r.wellFormed apply held)
  | changeIf i cond apply => exact changeIf_matches r i cond apply permitted
  | deleteEntry i =>
    exact through_matches r i fun h k _ held =>
      r.mutated deleted_updates (deleteEntry_mutated r.wellFormed held)
  | delete k => exact delete_matches r k
  | loadOrStore k v => exact loadOrStore_matches r k v permitted

omit [Inhabited V] in
theorem start_refines (base : HashMap K V) : Refines (Client.start base) ⟨base, []⟩ where
  wellFormed k h here := by
    simp [Client.start, newSyncMap] at here
  view k := view_none (by simp [Client.start, newSyncMap])
  handles := .nil

theorem Refines.load_value (r : Refines c p) (k : K) :
    p.map.lookup k = (c.map.load k).1.map fun h => (c.map.load k).2.value h := by
  cases stored : c.map.dirty.lookup k with
  | some h =>
    obtain ⟨e, entry, -⟩ := r.wellFormed k h stored
    have value : p.map.lookup k = e.mapEntry.shown := by
      rw [← r.view, view_stored r.wellFormed stored entry]
    have deleted : c.map.isDeleted h = e.mapEntry.delete := by simp [isDeleted, entry]
    have result : c.map.load k = if e.mapEntry.delete then (none, c.map) else (some h, c.map) := by
      simp [SyncMap.load, stored, deleted]
    rw [result, value, MapEntry.shown]
    split
    · rfl
    · rename_i kept
      simp [SyncMap.value, target_stored r.wellFormed stored, entry, valueLocked, kept]
  | none =>
    rw [← r.view, view_none stored]
    cases base : c.map.base.lookup k with
    | none => simp [SyncMap.load, stored, base]
    | some v =>
      have made := entry_newSyncMapEntryArc_self c.map ⟨k, v, v, false, false⟩
      have same := route_self _ (c.map.newSyncMapEntryArc ⟨k, v, v, false, false⟩).2.entries.length made rfl
      simp only [SyncMap.load, stored, base, Option.map_some, SyncMap.value, SyncMap.target, same, made]
      rfl
end

variable [Inhabited V] {c : Client K V} {p : Plain K V}

/-- The client of an overlay and the ordinary map after the same calls. -/
def ranClient (base : HashMap K V) (ops : List (Op K V)) : Client K V × List Answer :=
  Run.run Client.step (Client.start base) ops

def ranPlain (base : HashMap K V) (ops : List (Op K V)) : Plain K V × List Answer :=
  Run.run Plain.step ⟨base, []⟩ ops

theorem notDeleted_of_view (r : Refines c p) {k : K} {v : V}
    (looks : (c.step (.loadOrStore k v)).1.map.view k = (p.step (.loadOrStore k v)).1.map.lookup k) :
    c.map.NotDeleted k := by
  intro h stored
  by_contra live
  have deleted : c.map.isDeleted h = true := by simpa using live
  have value := r.lookup_stored stored
  rw [deleted, if_pos rfl] at value
  obtain ⟨d, entry, -⟩ := r.wellFormed k h stored
  let grown := (c.map.newEntry k v).2
  have r' : Refines ⟨grown, c.handles⟩ p := r.extends (newSyncMapEntryArc_extends c.map _)
  have still : grown.isDeleted h = true := by
    have same : grown.entry h = some d := entry_newSyncMapEntryArc c.map entry _
    rw [← deleted, isDeleted, isDeleted, entry, same]
  have result : grown.loadOrStore k (c.map.newEntry k v).1 = ((h, false), grown) := by
    have here : grown.dirty.lookup k = some h := stored
    unfold SyncMap.loadOrStore
    cases grown.base.lookup k <;> simp [here, still]
  have step : (c.step (.loadOrStore k v)).1.map = (grown.loadOrStore k (c.map.newEntry k v).1).2 := rfl
  have gone : grown.view k = none := (r'.view k).trans value
  rw [step, result, gone, Plain.step, value] at looks
  simp at looks

theorem agrees_of_view (r : Refines c p) {i h : Nat} {cond : V → Bool} {apply : V → V} (handle : c.handles[i]? = some h)
    (looks : ∀ k, (c.step (.changeIf i cond apply)).1.map.view k =
      (p.step (.changeIf i cond apply)).1.map.lookup k) : c.map.Agrees h cond apply := by
  intro e d t entry stored live kept
  obtain ⟨h', k, hc, hp, held⟩ := (r.handle i).resolve_right fun none => by simp [none.1] at handle
  obtain rfl : h' = h := by simpa [handle] using hc.symm
  have key : e.mapEntry.key = k := by
    rcases target_cases r.wellFormed held with here | ⟨e', same, clean⟩
    · obtain ⟨e', entry', key, -⟩ := r.wellFormed k _ here
      obtain rfl : e' = e := by simpa [entry] using entry'.symm
      exact key
    · rw [same, clean.entry] at entry
      cases entry
      exact clean.key
  rw [key] at stored
  have shown : c.map.view k = some d.mapEntry.value := by
    rw [view_stored r.wellFormed stored live, MapEntry.shown, if_neg (by simp [kept])]
  have after := looks k
  simp only [Client.step, Client.through, hc, Plain.step, Plain.through, hp, HashMap.lookup_alter,
    if_true, ← r.view, shown, SyncMap.changeIf, entry, Option.map_some] at after
  by_cases verdict : cond e.mapEntry.value = cond d.mapEntry.value
  · exact .inl verdict
  right
  split at after
  · rename_i own
    have effect := (change_mutated r.wellFormed apply held).view_eq (changed_updates apply) r.wellFormed k
    rw [if_pos rfl, shown] at effect
    have fails : ¬ cond d.mapEntry.value = true := fun holds => verdict (own.trans holds.symm)
    rw [if_neg fails] at after
    exact Option.some.inj (effect.symm.trans after)
  rename_i own
  have holds : cond d.mapEntry.value = true := by
    by_contra fails
    exact verdict (by rw [Bool.eq_false_iff.mpr own, Bool.eq_false_iff.mpr fails])
  rw [if_pos holds, shown] at after
  exact (Option.some.inj after).symm

/-- The two sides agree: finalization, the answers so far and every further load. -/
def Agreement (base : HashMap K V) (ops : List (Op K V)) : Prop :=
  (∀ order, HashMap.Enumerates order (ranClient base ops).1.map.dirty →
    ((ranClient base ops).1.map.finalize order).1 = (ranPlain base ops).1.map) ∧
  (ranClient base ops).2 = (ranPlain base ops).2 ∧
  ∀ k, (ranPlain base ops).1.map.lookup k = ((ranClient base ops).1.map.load k).1.map
    fun h => ((ranClient base ops).1.map.load k).2.value h

theorem agreement_of_permitted {base : HashMap K V} {ops : List (Op K V)}
    (permitted : Run.Along Client.step Permits (Client.start base) ops) : Agreement base ops := by
  obtain ⟨r, answers⟩ := step_simulates.run (start_refines base) permitted
  refine ⟨fun order enumerated => Finmap.ext_lookup fun k => ?_, answers, fun k => r.load_value k⟩
  rw [finalize_lookup _ enumerated, ranPlain, ← r.view]
  rfl

/-- A run agrees with the ordinary map in every state it reaches exactly when no value is
stored on a deleted key and no condition is decided on a stale value. -/
theorem agreement_iff_permitted (base : HashMap K V) (ops : List (Op K V)) :
    (∀ n, Agreement base (ops.take n)) ↔ Run.Along Client.step Permits (Client.start base) ops := by
  constructor
  · intro agreement
    refine Run.Simulates.along (fun c p => ∀ k, c.map.view k = p.map.lookup k) step_simulates ?_
      (start_refines base) fun n k => ?_
    · intro c p op r looks
      cases op with
      | changeIf i cond apply => exact fun h handle => agrees_of_view r handle looks
      | loadOrStore k v => exact notDeleted_of_view r (looks k)
      | _ => trivial
    · obtain ⟨order, enumerated⟩ := HashMap.exists_enumerates (ranClient base (ops.take n)).1.map.dirty
      have looks := finalize_lookup (ranClient base (ops.take n)).1.map enumerated k
      rw [(agreement n).1 order enumerated] at looks
      exact looks.symm
  · exact fun permitted n => agreement_of_permitted (permitted.take n)

/-- Load a key, delete it through the handle, store a new value. -/
def storeAfterDelete : List (Op String Nat) := [.load "a", .deleteEntry 0, .loadOrStore "a" 7]

def oneKey : HashMap String Nat := Finmap.insert "a" 1 ∅

theorem storeAfterDelete_enumerates : HashMap.Enumerates ["a"] (ranClient oneKey storeAfterDelete).1.map.dirty := by
  refine ⟨by decide, fun k => ?_⟩
  have dirty : (ranClient oneKey storeAfterDelete).1.map.dirty = Finmap.insert "a" 0 ∅ := by decide
  rw [dirty, Finmap.mem_insert]
  simp [Finmap.notMem_empty]

/-- The call reports that nothing was loaded, and the value it was given is nowhere. -/
theorem agreement_storeAfterDelete :
    ¬ Agreement oneKey storeAfterDelete ∧
    (ranClient oneKey storeAfterDelete).2 = [some true, none, some false] ∧
    (ranPlain oneKey storeAfterDelete).1.map.lookup "a" = some 7 ∧
    ((ranClient oneKey storeAfterDelete).1.map.finalize ["a"]).1.lookup "a" = none ∧
    ((ranClient oneKey storeAfterDelete).1.map.load "a").1 = none := by
  refine ⟨fun agreement => ?_, by decide, by decide, by decide, by decide⟩
  have same := congrArg (Finmap.lookup "a") (agreement.1 ["a"] storeAfterDelete_enumerates)
  revert same
  decide

end TypeScriptRs.Dirty
