import TypeScriptRs.Build.Tasks

/-! The traversal that sets up the tasks is a depth-first search of the reference graph. -/
namespace TypeScriptRs.Build
open Machine DepthFirst List

variable {host : Host} {o : Orchestrator}

namespace Orchestrator

def handle (o : Orchestrator) (p : Path) : Nat := (o.tasks.lookup p).getD 0

theorem lookup_handle {o : Orchestrator} {p : Path} (member : p ∈ o.tasks) : o.tasks.lookup p = some (o.handle p) := by
  obtain ⟨h, found⟩ := Finmap.mem_iff.mp member
  rw [handle, found]
  rfl

end Orchestrator

structure Prepared (host : Host) (o : Orchestrator) : Prop where
  distinct : Distinct o
  closed : ∀ p ∈ o.tasks, ∀ r ∈ host.references p, r.1 ∈ o.tasks
  ready : ∀ p h, o.tasks.lookup p = some h → ∃ t, o.heap[h]? = some t ∧
    t.resolved = host.resolvedProjectReference.lookup p ∧ t.upStream = []
  blank : o.order = [] ∧ o.errors = []

/-- A task during the traversal, against the task it started as. A link is written
downward before it is written upward, so the two directions have a search each. -/
structure Linked (host : Host) (o : Orchestrator) (up s : State Path) (p : Path) (t₀ t : BuildTask) :
    Prop where
  resolved : t.resolved = t₀.resolved
  dirty : t.dirty = t₀.dirty
  upStream : t.upStream = (up.linksOf p).map fun l => ⟨o.handle l.2, l.1⟩
  downStream : t.downStream = t₀.downStream ++ if host.watch then (s.linksTo p).map o.handle else []
  prevReporter : t.prevReporter = ((previous s.order p).map o.handle).or t₀.prevReporter

def Each (o : Orchestrator) (heap : List BuildTask) (R : Path → BuildTask → BuildTask → Prop) : Prop :=
  ∀ p ∈ o.tasks, ∀ t₀, o.heap[o.handle p]? = some t₀ → ∃ t, heap[o.handle p]? = some t ∧ R p t₀ t

/-- The traversal and the search side by side; `o` is where the traversal started. -/
structure Mirrors (host : Host) (o : Orchestrator) (st : Host.Setup) (s : State Path) : Prop where
  tasks : st.orchestrator.tasks = o.tasks
  order : st.orchestrator.order.map host.path = s.order
  errors : st.orchestrator.errors.length = s.cycles.length
  completed : ∀ p, p ∈ st.completed ↔ p ∈ s.order
  analyzing : ∀ p, p ∈ st.analyzing ↔ p ∈ s.seen
  known : ∀ p ∈ s.order, p ∈ o.tasks
  heap : Each o st.orchestrator.heap (Linked host o s s)

section
variable {host : Host} {o : Orchestrator} {st : Host.Setup} {s : State Path} {p c : Path}

theorem Prepared.handle_ne (prep : Prepared host o) {q : Path} (hp : p ∈ o.tasks) (hq : q ∈ o.tasks)
    (other : q ≠ p) : o.handle q ≠ o.handle p := by
  intro same
  have found := Orchestrator.lookup_handle hq
  rw [same] at found
  exact other (prep.distinct.injective q p _ found (Orchestrator.lookup_handle hp))

theorem Mirrors.getTask (m : Mirrors host o st s) (member : p ∈ o.tasks) : st.orchestrator.getTask p = .ok (o.handle p) := by
  rw [Orchestrator.getTask, m.tasks, Orchestrator.lookup_handle member]

theorem Each.modify {heap : List BuildTask} {R R' : Path → BuildTask → BuildTask → Prop}
    (each : Each o heap R) (prep : Prepared host o) (member : p ∈ o.tasks)
    {f : BuildTask → BuildTask} (here : ∀ t₀ t, R p t₀ t → R' p t₀ (f t))
    (others : ∀ q ≠ p, ∀ t₀ t, R q t₀ t → R' q t₀ t) : Each o (heap.modify (o.handle p) f) R' := by
  intro q hq t₀ entry₀
  obtain ⟨tp, entryP, -⟩ := prep.ready p _ (Orchestrator.lookup_handle member)
  obtain ⟨t, entry, -⟩ := each p member tp entryP
  obtain ⟨tq, entryQ, related⟩ := each q hq t₀ entry₀
  rw [getElem_modify entry]
  by_cases same : q = p
  · subst same
    rw [entry] at entryQ
    cases entryQ
    exact ⟨f t, if_pos rfl, here t₀ t related⟩
  · exact ⟨tq, by rw [if_neg (prep.handle_ne member hq same), entryQ], others q same t₀ tq related⟩

variable (m : Mirrors host o st s)
include m

theorem Mirrors.discover (p : Path) (marked : Bool) :
    Mirrors host o { st with analyzing := insert p st.analyzing } (s.discover p marked) where
  tasks := m.tasks
  order := m.order
  errors := m.errors
  completed := m.completed
  analyzing q := by
    rw [seen_discover, Finset.mem_insert, m.analyzing, mem_append, mem_singleton, or_comm]
  known := m.known
  heap q hq t₀ entry := by
    obtain ⟨t, entry', linked⟩ := m.heap q hq t₀ entry
    exact ⟨t, entry', { linked with }⟩

theorem Mirrors.linkDown (prep : Prepared host o) (hc : c ∈ o.tasks)
    (p : Path) (index : Nat) : Each o (host.linkDownStream (some (o.handle p)) (o.handle c) st).orchestrator.heap
      (Linked host o s (s.link p index c)) := by
  unfold Host.linkDownStream
  cases watch : host.watch with
  | false =>
    intro q hq t₀ entry
    obtain ⟨t, entry', linked⟩ := m.heap q hq t₀ entry
    exact ⟨t, entry', { linked with downStream := by simpa [watch] using linked.downStream }⟩
  | true =>
    refine m.heap.modify prep hc (fun t₀ t linked => ?_) fun q apart t₀ t linked => ?_
    · refine { linked with downStream := ?_ }
      rw [linksTo_link, if_pos rfl]
      simp [linked.downStream, watch]
    · refine { linked with downStream := ?_ }
      rw [linksTo_link, if_neg apart.symm, append_nil]
      exact linked.downStream

theorem Mirrors.link (prep : Prepared host o) (hp : p ∈ o.tasks) (hc : c ∈ o.tasks) (index : Nat) :
    Mirrors host o { host.linkDownStream (some (o.handle p)) (o.handle c) st with
      orchestrator := (host.linkDownStream (some (o.handle p)) (o.handle c) st).orchestrator.pushUpStream
        (o.handle p) (o.handle c) index } (s.link p index c) := by
  have down := m.linkDown prep hc p index
  have same : ∀ d task, (host.linkDownStream d task st).orchestrator.tasks = st.orchestrator.tasks ∧
      (host.linkDownStream d task st).orchestrator.order = st.orchestrator.order ∧
      (host.linkDownStream d task st).orchestrator.errors = st.orchestrator.errors ∧
      (host.linkDownStream d task st).completed = st.completed ∧
      (host.linkDownStream d task st).analyzing = st.analyzing := by
    intro d task
    unfold Host.linkDownStream
    split <;> exact ⟨rfl, rfl, rfl, rfl, rfl⟩
  obtain ⟨tasks, order, errors, completed, analyzing⟩ := same (some (o.handle p)) (o.handle c)
  refine ⟨tasks.trans m.tasks, (congrArg _ order).trans m.order, (congrArg _ errors).trans m.errors,
    fun q => ?_, fun q => ?_, m.known, ?_⟩
  · rw [completed]
    exact m.completed q
  · rw [analyzing]
    exact m.analyzing q
  refine down.modify prep hp (fun t₀ t linked => ?_) fun q other t₀ t linked => ?_
  · refine { linked with upStream := ?_ }
    rw [linksOf_link, if_pos rfl]
    simp [linked.upStream]
  · refine { linked with upStream := ?_ }
    rw [linksOf_link, if_neg other.symm, append_nil]
    exact linked.upStream

theorem Mirrors.complete (prep : Prepared host o) {config : ConfigName}
    (member : host.path config ∈ o.tasks) (fresh : host.path config ∉ s.order) :
    ∃ st', host.completeTask st config (host.path config) (o.handle (host.path config)) = .ok st' ∧
      Mirrors host o st' (s.complete (host.path config)) := by
  have completed : ∀ p, p ∈ insert (host.path config) st.completed ↔
      p ∈ s.order ++ [host.path config] := by
    intro p
    rw [Finset.mem_insert, m.completed, mem_append, mem_singleton, or_comm]
  have order : (st.orchestrator.order ++ [config]).map host.path = s.order ++ [host.path config] := by
    rw [map_append, m.order]
    rfl
  have known : ∀ p ∈ s.order ++ [host.path config], p ∈ o.tasks := by
    intro p listed
    rcases mem_append.mp listed with old | new
    · exact m.known p old
    · exact mem_singleton.mp new ▸ member
  have last : s.order.getLast? = st.orchestrator.order.getLast?.map host.path := by
    rw [← m.order, List.getLast?_map]
  cases previousTask : st.orchestrator.order.getLast? with
  | none =>
    refine ⟨⟨{ st.orchestrator with order := st.orchestrator.order ++ [config] },
      insert (host.path config) st.completed, st.analyzing⟩, by simp [Host.completeTask, previousTask],
      m.tasks, order, m.errors, completed, m.analyzing, known, fun q hq t₀ entry => ?_⟩
    obtain ⟨t, entry', linked⟩ := m.heap q hq t₀ entry
    refine ⟨t, entry', { linked with prevReporter := ?_ }⟩
    rw [State.complete, previous_append fresh, last, previousTask]
    by_cases same : q = host.path config
    · have first := linked.prevReporter
      rw [previous, if_neg (same ▸ fresh)] at first
      rw [if_pos same]
      exact first
    · rw [if_neg same]
      exact linked.prevReporter
  | some prev =>
    have listed : host.path prev ∈ s.order := by
      rw [← m.order]
      exact mem_map.mpr ⟨prev, mem_of_getLast? previousTask, rfl⟩
    refine ⟨⟨{ st.orchestrator.setPrevReporter (o.handle (host.path config)) (o.handle (host.path prev)) with
        order := st.orchestrator.order ++ [config] },
      insert (host.path config) st.completed, st.analyzing⟩, ?_,
      m.tasks, order, m.errors, completed, m.analyzing, known, ?_⟩
    · simp only [Host.completeTask, previousTask, m.getTask (m.known _ listed), Outcome.bind_ok]
      rfl
    refine m.heap.modify prep member (fun t₀ t linked => ?_) fun q other t₀ t linked => ?_
    · refine { linked with prevReporter := ?_ }
      rw [State.complete, previous_append fresh, if_pos rfl, last, previousTask]
      rfl
    · refine { linked with prevReporter := ?_ }
      rw [State.complete, previous_append fresh, if_neg other]
      exact linked.prevReporter

theorem Mirrors.report (n : Path) (stack : List ConfigName) : Mirrors host o { st with
      orchestrator := { st.orchestrator with errors := st.orchestrator.errors ++ [stack] } }
      (s.report n) where
  tasks := m.tasks
  order := m.order
  errors := by simp [State.report, m.errors]
  completed := m.completed
  analyzing := m.analyzing
  known := m.known
  heap q hq t₀ entry := by
    obtain ⟨t, entry', linked⟩ := m.heap q hq t₀ entry
    exact ⟨t, entry', { linked with }⟩

theorem Mirrors.linkUpStream (prep : Prepared host o) (hp : p ∈ o.tasks) (hc : c ∈ o.tasks) (index : Nat) (found : Bool) :
    Mirrors host o (Host.linkUpStream (o.handle p) index
      (if found then (some (o.handle c), host.linkDownStream (some (o.handle p)) (o.handle c) st)
        else (none, st))) (if found then s.link p index c else s) := by
  cases found with
  | true => exact m.link prep hp hc index
  | false => exact m

theorem Mirrors.resolved (prep : Prepared host o) (member : p ∈ o.tasks) :
    (st.orchestrator.heap[o.handle p]?).bind BuildTask.resolved = host.resolvedProjectReference.lookup p := by
  obtain ⟨t₀, entry₀, resolved, -⟩ := prep.ready p _ (Orchestrator.lookup_handle member)
  obtain ⟨t, entry, linked⟩ := m.heap p member t₀ entry₀
  rw [entry, Option.bind_some, linked.resolved, resolved]
end

/-- What a visit of the traversal returns when the search has `found` a completed task. -/
def visitResult (host : Host) (o : Orchestrator) (downStream : Option Nat) (p : Path) (found : Bool)
    (st : Host.Setup) : Option Nat × Host.Setup :=
  if found then (some (o.handle p), host.linkDownStream downStream (o.handle p) st) else (none, st)

theorem foldlM_mirrors (prep : Prepared host o) {visitChild : Path → Bool → State Path → Option (Bool × State Path)}
    {setup : ConfigName → Option Nat → Bool → List ConfigName → Host.Setup → Outcome (Option Nat × Host.Setup)}
    (each : ∀ config downStream marked stack st s s' found, Mirrors host o st s →
      host.path config ∈ o.tasks → visitChild (host.path config) marked s = some (found, s') →
      ∃ st', Mirrors host o st' s' ∧
        setup config downStream marked stack st = .ok (visitResult host o downStream (host.path config) found st'))
    {p : Path} (hp : p ∈ o.tasks) (marked : Bool) (stack : List ConfigName)
    (rest : List (ProjectReference × Nat)) : ∀ (st : Host.Setup) (s s' : State Path), Mirrors host o st s →
    (∀ r ∈ rest, host.path r.1.config ∈ o.tasks) →
    (rest.map fun r => ((host.path r.1.config, r.1.circular), r.2)).foldlM (follow visitChild p marked) s =
      some s' →
    ∃ st', Mirrors host o st' s' ∧ rest.foldlM (fun st reference =>
      (setup reference.1.config (some (o.handle p)) (marked || reference.1.circular) stack st).bind
        fun result => .ok (Host.linkUpStream (o.handle p) reference.2 result)) st = .ok st' := by
  induction rest with
  | nil =>
    intro st s s' m _ run
    cases run
    exact ⟨st, m, rfl⟩
  | cons r rest ih =>
    intro st s s' m known run
    obtain ⟨s₁, first, more⟩ := Option.bind_eq_some_iff.mp run
    obtain ⟨found, s₂, visited, rfl⟩ := follow_some first
    obtain ⟨st₂, m₂, ran⟩ := each r.1.config (some (o.handle p)) _ stack st s s₂ found m (known r (by simp)) visited
    have linked := m₂.linkUpStream prep hp (known r (by simp)) r.2 found
    obtain ⟨st', m', rest'⟩ := ih _ _ _ linked (fun q hq => known q (by simp [hq])) more
    refine ⟨st', m', ?_⟩
    rw [foldlM_cons, ran]
    exact rest'

theorem setupBuildTask_mirrors (prep : Prepared host o) (fuel : Nat) :
    ∀ (config : ConfigName) (downStream : Option Nat) (marked : Bool) (stack : List ConfigName)
      (st : Host.Setup) (s s' : State Path) (found : Bool), Mirrors host o st s → host.path config ∈ o.tasks →
      visit host.references fuel (host.path config) marked s = some (found, s') →
      ∃ st', Mirrors host o st' s' ∧ host.setupBuildTask fuel config downStream marked stack st =
        .ok (visitResult host o downStream (host.path config) found st') := by
  induction fuel with
  | zero =>
    intro config downStream marked stack st s s' found _ _ run
    cases run
  | succ fuel ih =>
    intro config downStream marked stack st s s' found m member run
    unfold visit at run
    unfold Host.setupBuildTask visitResult
    simp only [m.getTask member, Outcome.bind_ok, m.completed, m.analyzing]
    split at run
    · rename_i listed
      cases run
      exact ⟨st, m, by simp [listed]⟩
    rename_i unlisted
    split at run
    · rename_i seen
      cases run
      cases marked with
      | true => exact ⟨st, m, by simp [unlisted, seen]⟩
      | false => exact ⟨_, m.report (host.path config) stack, by simp [unlisted, seen]⟩
    rename_i unseen
    obtain ⟨s₁, loop, same⟩ := Option.map_eq_some_iff.mp run
    cases same
    have m₀ := m.discover (host.path config) marked
    have resolved := m₀.resolved prep member
    have edges : (host.references (host.path config)).zipIdx =
        ((host.resolvedProjectReference.lookup (host.path config)).getD []).zipIdx.map
          fun r => ((host.path r.1.config, r.1.circular), r.2) := by
      rw [Host.references, zipIdx_map]
      rfl
    rw [edges] at loop
    obtain ⟨st₁, m₁, ran⟩ := foldlM_mirrors prep ih member marked (stack ++ [config]) _ _ _ _ m₀ (by
      intro r hr
      have reference := fst_mem_of_mem_zipIdx hr
      exact prep.closed _ member (host.path r.1.config, r.1.circular)
        (mem_map.mpr ⟨r.1, reference, rfl⟩)) loop
    -- The project stays open until its references are done.
    have fresh : host.path config ∉ s₁.order := by
      have kept := foldlM_keeps (visit_keeps fuel) _ _ _ loop
      exact fun now => unlisted ((kept.nodes _ (by simp)).2.mp now)
    obtain ⟨st₂, completed, m₂⟩ := m₁.complete prep member fresh
    refine ⟨st₂, m₂, ?_⟩
    rw [if_neg unlisted, if_neg unseen, resolved, ran, Outcome.bind_ok, completed]
    rfl

end TypeScriptRs.Build
