import TypeScriptRs.Dirty.Refinement

/-! Handles of one key, against a single cell. -/
namespace TypeScriptRs.Dirty
open SyncMap List

variable {K V : Type} [DecidableEq K]

inductive Mutation (V : Type) where
  | change (apply : V → V)
  | changeIf (cond : V → Bool) (apply : V → V)
  | delete

/-- What a call does to a cell; nothing but a store fills an empty one. -/
def Mutation.effect : Mutation V → Option V → Option V
  | .change apply => Option.map apply
  | .changeIf cond apply => Option.map fun v => if cond v then apply v else v
  | .delete => fun _ => none

/-- Loading the key once more, or a call through one of the handles loaded so far. -/
inductive HandleOp (V : Type) where
  | load
  | call (handle : Nat) (m : Mutation V)

def HandleOp.toOp (k : K) : HandleOp V → Op K V
  | .load => .load k
  | .call i (.change apply) => .change i apply
  | .call i (.changeIf cond apply) => .changeIf i cond apply
  | .call i .delete => .deleteEntry i

structure Cell (V : Type) where
  value : Option V
  handles : Nat

def Cell.step (cell : Cell V) : HandleOp V → Cell V × Answer
  | .load => if cell.value.isSome then (⟨cell.value, cell.handles + 1⟩, some true) else (cell, some false)
  | .call i m => if i < cell.handles then (⟨m.effect cell.value, cell.handles⟩, none) else (cell, none)

/-- A handle other than `h` through which nothing has been changed: it holds a copy of
the base value. -/
structure Bystander (c : Client K V) (h h' : Nat) (e' : SyncMapEntry K V) : Prop where
  member : h' ∈ c.handles
  other : h' ≠ h
  entry : c.map.entry h' = some e'
  noProxy : e'.proxyFor = none
  notDirty : e'.mapEntry.dirty = false
  notDeleted : e'.mapEntry.delete = false

def Mutation.run (s : SyncMap K V) (h : Nat) : Mutation V → SyncMap K V
  | .change apply => s.change h apply
  | .changeIf cond apply => (s.changeIf h cond apply).2
  | .delete => s.deleteEntry h

section
variable {s : SyncMap K V} {k : K} {h : Nat} {e : SyncMapEntry K V}

section
variable (wf : s.WellFormed) (held : s.Holds k h)
include wf held

theorem run_cases (m : Mutation V) :
    m.run s h = s ∨ ∃ upd effect, Updates upd effect ∧ Mutated upd s k (s.target h) (m.run s h) := by
  cases m with
  | change apply => exact .inr ⟨_, _, changed_updates apply, change_mutated wf apply held⟩
  | delete => exact .inr ⟨_, _, deleted_updates, deleteEntry_mutated wf held⟩
  | changeIf cond apply =>
    simp only [Mutation.run, SyncMap.changeIf]
    cases s.entry (s.target h) with
    | none => exact .inl rfl
    | some e =>
      dsimp only
      split
      · exact .inr ⟨_, _, changed_updates apply, change_mutated wf apply held⟩
      · exact .inl rfl

theorem clean_of_untouched (entry : s.entry h = some e) (noProxy : e.proxyFor = none) (notDirty : e.mapEntry.dirty = false)
    (notDeleted : e.mapEntry.delete = false) : s.Clean k h e := by
  cases held with
  | stored here =>
    obtain ⟨d, same, -, -, mark⟩ := wf k h here
    rw [entry] at same
    cases same
    simp [notDirty, notDeleted] at mark
  | proxy d t same proxyFor here =>
    rw [entry] at same
    cases same
    simp [noProxy] at proxyFor
  | clean d clean =>
    have same := clean.entry
    rw [entry] at same
    cases same
    exact clean

theorem clean_ne_target {h' : Nat} (clean : s.Clean k h' e) (other : h' ≠ h) : h' ≠ s.target h := by
  rcases target_cases wf held with here | ⟨d, same, -⟩
  · intro equal
    obtain ⟨d, stored, -, -, mark⟩ := wf k _ here
    rw [← equal, clean.entry] at stored
    cases stored
    simp [clean.notDirty, clean.notDeleted] at mark
  · rwa [same]
end

variable [Inhabited V]

theorem Clean.value_eq (clean : s.Clean k h e) : s.value h = e.mapEntry.value := by
  have same : s.target h = h := route_self s _ clean.entry clean.noProxy
  simp [SyncMap.value, same, clean.entry, valueLocked, clean.notDeleted]

theorem value_attached (wf : s.WellFormed) (here : s.dirty.lookup k = some (s.target h)) :
    s.value h = (s.view k).getD default := by
  obtain ⟨e, entry, -⟩ := wf k _ here
  rw [view_stored wf here entry, SyncMap.value, entry, Option.map_some, valueLocked, MapEntry.shown]
  split <;> rfl

theorem value_cases (wf : s.WellFormed) (held : s.Holds k h) : s.value h = (s.view k).getD default ∨ ∃ e, s.Clean k h e := by
  rcases target_cases wf held with here | ⟨e, -, clean⟩
  · exact .inl (value_attached wf here)
  · exact .inr ⟨e, clean⟩
end

def Follows (k : K) (c : Client K V) (cell : Cell V) : Prop :=
  ∃ p, Refines c p ∧ p.map.lookup k = cell.value ∧ p.handles = List.replicate cell.handles k

omit [DecidableEq K] in
theorem handle_of_replicate {handles : List K} {n : Nat} {k : K} (all : handles = List.replicate n k) (i : Nat) :
    handles[i]? = if i < n then some k else none := by
  rw [all, List.getElem?_replicate]

theorem plain_step_cell {p : Plain K V} {cell : Cell V} {k : K} (value : p.map.lookup k = cell.value)
    (handles : p.handles = List.replicate cell.handles k) (op : HandleOp V) :
    (p.step (op.toOp k)).1.map.lookup k = (cell.step op).1.value ∧
    (p.step (op.toOp k)).1.handles = List.replicate (cell.step op).1.handles k ∧
    (p.step (op.toOp k)).2 = (cell.step op).2 := by
  cases op with
  | load =>
    simp only [HandleOp.toOp, Plain.step, Cell.step, value]
    cases found : cell.value with
    | none => exact ⟨by simp [value, found], handles, rfl⟩
    | some v => exact ⟨by simp [value, found], by simp [handles, replicate_succ'], rfl⟩
  | call i m =>
    have step : p.step ((HandleOp.call i m).toOp k) = p.through i m.effect := by cases m <;> rfl
    rw [step, Plain.through, handle_of_replicate handles, Cell.step]
    by_cases has : i < cell.handles
    · simp [has, HashMap.lookup_alter, value, handles]
    · simp [has, value, handles]

section
variable [Inhabited V] {k : K} {c : Client K V} {cell : Cell V} {n : Nat}

def handleStep (k : K) (c : Client K V) (op : HandleOp V) : Client K V × Answer := c.step (op.toOp k)

def Decides (k : K) (c : Client K V) (op : HandleOp V) : Prop := Permits c (op.toOp k)

theorem follows_simulates : Run.Simulates (handleStep (V := V) k) Cell.step (Decides k) (Follows k) := by
  rintro c cell op ⟨p, r, value, handles⟩ decides
  obtain ⟨next, answer⟩ := step_simulates c p (op.toOp k) r decides
  obtain ⟨value', handles', answer'⟩ := plain_step_cell value handles op
  exact ⟨⟨_, next, value', handles'⟩, answer.trans answer'⟩

/-- Every call leaves each bystander with the value it already holds. -/
def Seen (k : K) (c : Client K V) : HandleOp V → Prop
  | .load => True
  | .call i m => ∀ h h' e', c.handles[i]? = some h → Bystander c h h' e' →
      (m.effect (c.map.view k)).getD default = e'.mapEntry.value

structure Shares (k : K) (c : Client K V) (cell : Cell V) : Prop where
  follows : Follows k c cell
  reads : ∀ h ∈ c.handles, c.map.value h = cell.value.getD default

omit [Inhabited V] in
theorem Follows.facts (f : Follows k c cell) :
    c.map.WellFormed ∧ c.map.view k = cell.value ∧ ∀ h ∈ c.handles, c.map.Holds k h := by
  obtain ⟨p, r, value, handles⟩ := f
  refine ⟨r.wellFormed, (r.view k).trans value, fun h member => ?_⟩
  obtain ⟨i, bound, at'⟩ := mem_iff_getElem.mp member
  rcases r.handle i with ⟨h', k', hc, hp, held⟩ | ⟨hc, -⟩
  · rw [handle_of_replicate handles] at hp
    split at hp
    · cases hp
      rw [List.getElem?_eq_getElem bound, at'] at hc
      cases hc
      exact held
    · cases hp
  · simp [bound] at hc

omit [Inhabited V] in
theorem Follows.length (f : Follows k c cell) : c.handles.length = cell.handles := by
  obtain ⟨p, r, -, handles⟩ := f
  rw [r.handles.length_eq, handles, length_replicate]

omit [Inhabited V] in
theorem Follows.step_call (f : Follows k c cell) {i h : Nat} (m : Mutation V) (handle : c.handles[i]? = some h) :
    cell.step (.call i m) = (⟨m.effect cell.value, cell.handles⟩, none) := by
  have has : i < cell.handles := by
    rw [← f.length]
    exact (List.getElem?_eq_some_iff.mp handle).1
  simp [Cell.step, has]

theorem Shares.decides (sh : Shares k c cell) (op : HandleOp V) : Decides k c op := by
  cases op with
  | load => trivial
  | call i m =>
    cases m with
    | change apply => trivial
    | delete => trivial
    | changeIf cond apply =>
      intro h handle e d t entry stored live kept
      obtain ⟨wf, view, holds⟩ := sh.follows.facts
      have member := mem_of_getElem? handle
      rcases target_cases wf (holds h member) with here | ⟨e', same, clean⟩
      · obtain ⟨e', entry', key, -⟩ := wf k _ here
        rw [entry] at entry'
        cases entry'
        rw [key, here] at stored
        cases stored
        rw [entry] at live
        cases live
        exact .inl rfl
      · rw [same, clean.entry] at entry
        cases entry
        rw [clean.key] at stored
        have own := Clean.value_eq clean
        rw [sh.reads h member, ← view, view_stored wf stored live, MapEntry.shown,
          if_neg (by simp [kept])] at own
        exact .inl (congrArg cond own.symm)

theorem handleStep_call {i h : Nat} (m : Mutation V) (handle : c.handles[i]? = some h) :
    handleStep k c (.call i m) = (⟨m.run c.map h, c.handles⟩, none) := by
  cases m <;> simp [handleStep, HandleOp.toOp, Client.step, Client.through, handle, Mutation.run]

theorem call_reads (sh : Shares k c cell) {i h : Nat} {m : Mutation V} (handle : c.handles[i]? = some h)
    (seen : Seen k c (.call i m)) (next : Follows k ⟨m.run c.map h, c.handles⟩ ⟨m.effect cell.value, n⟩) :
    ∀ h' ∈ c.handles, (m.run c.map h).value h' = (m.effect cell.value).getD default := by
  intro h' member
  obtain ⟨wf, view, holds⟩ := sh.follows.facts
  obtain ⟨wf', view', holds'⟩ := next.facts
  have held := holds h (mem_of_getElem? handle)
  rcases value_cases wf' (holds' h' member) with reads | ⟨e, clean⟩
  · rw [reads, view']
  rw [Clean.value_eq clean]
  rcases run_cases wf held m with same | ⟨upd, effect, updates, mutated⟩
  · have still : m.effect cell.value = cell.value := by
      calc m.effect cell.value = (m.run c.map h).view k := view'.symm
        _ = c.map.view k := by rw [same]
        _ = cell.value := view
    rw [still, ← sh.reads h' member]
    exact (Clean.value_eq (same ▸ clean)).symm
  obtain ⟨before, apart⟩ := mutated.clean_before updates clean
  have other : h' ≠ h := by
    rintro rfl
    exact apart (route_self _ _ before.entry before.noProxy).symm
  rw [← view]
  exact (seen h h' e handle ⟨member, other, before.entry, before.noProxy, before.notDirty,
    before.notDeleted⟩).symm

theorem load_reads (sh : Shares k c cell) (next : Follows k (c.step (.load k)).1 ⟨cell.value, n⟩) :
    ∀ h ∈ (c.step (.load k)).1.handles, (c.step (.load k)).1.map.value h = cell.value.getD default := by
  intro h member
  obtain ⟨wf, view, -⟩ := sh.follows.facts
  cases stored : c.map.dirty.lookup k with
  | some t =>
    have attached : c.map.value t = cell.value.getD default := by
      rw [value_attached wf (h := t) (by rw [target_stored wf stored, stored]), view]
    cases deleted : c.map.isDeleted t with
    | true =>
      have result : c.map.load k = (none, c.map) := by simp [SyncMap.load, stored, deleted]
      simp only [Client.step, result] at member ⊢
      exact sh.reads h member
    | false =>
      have result : c.map.load k = (some t, c.map) := by simp [SyncMap.load, stored, deleted]
      simp only [Client.step, result] at member ⊢
      rcases mem_append.mp member with old | new
      · exact sh.reads h old
      · rw [mem_singleton.mp new, attached]
  | none =>
    have free : (c.step (.load k)).1.map.dirty.lookup k = none := by
      simp only [Client.step, SyncMap.load, stored]
      cases base : c.map.base.lookup k <;> simp [stored, newSyncMapEntryArc]
    obtain ⟨wf', view', holds'⟩ := next.facts
    rcases value_cases wf' (holds' h member) with reads | ⟨e, clean⟩
    · rw [reads, view']
    have whole : cell.value = some e.mapEntry.value := by
      rw [← clean.base, ← view_none free]
      exact view'.symm
    rw [Clean.value_eq clean, whole]
    rfl

theorem shares_simulates : Run.Simulates (handleStep (V := V) k) Cell.step (Seen k) (Shares k) := by
  intro c cell op sh seen
  obtain ⟨next, answer⟩ := follows_simulates c cell op sh.follows (sh.decides op)
  refine ⟨⟨next, ?_⟩, answer⟩
  cases op with
  | load =>
    have same : (cell.step .load).1 = ⟨cell.value, (cell.step .load).1.handles⟩ := by
      rw [Cell.step]
      split <;> rfl
    rw [same] at next ⊢
    have reads := load_reads sh next
    exact reads
  | call i m =>
    cases handle : c.handles[i]? with
    | some h =>
      rw [handleStep_call m handle, sh.follows.step_call m handle] at next ⊢
      exact call_reads sh handle seen next
    | none =>
      have idle : handleStep k c (.call i m) = (c, none) := by
        cases m <;> simp [handleStep, HandleOp.toOp, Client.step, Client.through, handle]
      rw [idle] at next ⊢
      have same : (cell.step (.call i m)).1.value = cell.value := by
        rw [← next.facts.2.1, ← sh.follows.facts.2.1]
      rw [same]
      exact sh.reads

theorem seen_of_reads (f : Follows k c cell) (op : HandleOp V) (reads : ∀ h ∈ (handleStep k c op).1.handles,
      (handleStep k c op).1.map.value h = (cell.step op).1.value.getD default) : Seen k c op := by
  cases op with
  | load => trivial
  | call i m =>
    intro h h' e' handle by'
    obtain ⟨wf, view, holds⟩ := f.facts
    have held := holds h (mem_of_getElem? handle)
    have clean := clean_of_untouched wf (holds h' by'.member) by'.entry by'.noProxy by'.notDirty by'.notDeleted
    have after := reads h'
    rw [handleStep_call m handle, f.step_call m handle] at after
    rw [view, ← after by'.member]
    rcases run_cases wf held m with same | ⟨upd, effect, -, mutated⟩
    · rw [show (m.run c.map h).value h' = c.map.value h' from by rw [same]]
      exact Clean.value_eq clean
    · exact Clean.value_eq (mutated.bystander wf clean (clean_ne_target wf held clean by'.other))

def ranHandles (base : HashMap K V) (k : K) (ops : List (HandleOp V)) : Client K V × List Answer :=
  Run.run (handleStep k) (Client.start base) ops

def ranCell (base : HashMap K V) (k : K) (ops : List (HandleOp V)) : Cell V × List Answer :=
  Run.run Cell.step ⟨base.lookup k, 0⟩ ops

def KeepsCell (base : HashMap K V) (k : K) (ops : List (HandleOp V)) : Prop :=
  ∀ order, HashMap.Enumerates order (ranHandles base k ops).1.map.dirty →
    ((ranHandles base k ops).1.map.finalize order).1.lookup k = (ranCell base k ops).1.value

def ReadsCell (base : HashMap K V) (k : K) (ops : List (HandleOp V)) : Prop :=
  ∀ h ∈ (ranHandles base k ops).1.handles,
    (ranHandles base k ops).1.map.value h = (ranCell base k ops).1.value.getD default

theorem start_shares (base : HashMap K V) (k : K) : Shares k (Client.start base) ⟨base.lookup k, 0⟩ where
  follows := ⟨_, start_refines base, rfl, rfl⟩
  reads h member := by simp [Client.start] at member

omit [Inhabited V] in
theorem Follows.keeps (f : Follows k c cell) {order : List K}
    (enumerated : HashMap.Enumerates order c.map.dirty) : (c.map.finalize order).1.lookup k = cell.value := by
  rw [finalize_lookup _ enumerated, f.facts.2.1]

/-- Every state of a run keeps the cell in finalization and in all handles exactly when
each call leaves the bystanders with the value they hold. When conditions are only
decided as on the cell, finalization is still right, and the handles that read something
else are those through which nothing was changed. -/
theorem handles_share_cell (base : HashMap K V) (k : K) (ops : List (HandleOp V)) :
    ((∀ n, KeepsCell base k (ops.take n) ∧ ReadsCell base k (ops.take n)) ↔
      Run.Along (handleStep k) (Seen k) (Client.start base) ops) ∧
    (Run.Along (handleStep k) (Decides k) (Client.start base) ops →
      KeepsCell base k ops ∧ ∀ h ∈ (ranHandles base k ops).1.handles,
        (ranHandles base k ops).1.map.value h = (ranCell base k ops).1.value.getD default ∨
        ∃ e, (ranHandles base k ops).1.map.Clean k h e) := by
  have start := start_shares base k
  refine ⟨⟨fun looks => ?_, fun seen n => ?_⟩, fun decides => ?_⟩
  · refine Run.Simulates.along
      (fun (c : Client K V) (cell : Cell V) => ∀ h ∈ c.handles, c.map.value h = cell.value.getD default)
      shares_simulates ?_ start fun n => (looks n).2
    exact fun c cell op sh reads => seen_of_reads sh.follows op reads
  · obtain ⟨final, -⟩ := shares_simulates.run start (seen.take n)
    exact ⟨fun order enumerated => final.follows.keeps enumerated, final.reads⟩
  obtain ⟨final, -⟩ := follows_simulates.run start.follows decides
  refine ⟨fun order enumerated => final.keeps enumerated, fun h member => ?_⟩
  obtain ⟨wf, view, holds⟩ := final.facts
  rcases value_cases wf (holds h member) with reads | clean
  · exact .inl (reads.trans (congrArg (Option.getD · default) view))
  · exact .inr clean
end

/-- Two handles of a clean key: one changes it, the other asks about the old value. -/
def staleCondition : List (HandleOp Nat) :=
  [.load, .load, .call 0 (.change (· + 1)), .call 1 (.changeIf (· == 1) (· * 10))]

theorem staleCondition_loses :
    ¬ KeepsCell oneKey "a" staleCondition ∧ ¬ ReadsCell oneKey "a" (staleCondition.take 3) ∧
    (ranCell oneKey "a" staleCondition).1.value = some 2 ∧
    ((ranHandles oneKey "a" staleCondition).1.map.finalize ["a"]).1.lookup "a" = some 20 := by
  have enumerated : HashMap.Enumerates ["a"] (ranHandles oneKey "a" staleCondition).1.map.dirty := by
    refine ⟨by decide, fun k => ?_⟩
    have dirty : (ranHandles oneKey "a" staleCondition).1.map.dirty = Finmap.insert "a" 0 ∅ := by decide
    rw [dirty, Finmap.mem_insert]
    simp [Finmap.notMem_empty]
  refine ⟨fun keeps => ?_, by unfold ReadsCell; decide, by decide, by decide⟩
  have same := keeps ["a"] enumerated
  revert same
  decide

end TypeScriptRs.Dirty
