import TypeScriptRs.Build.Setup

/-! The order of the projects, the links upward and the reported cycles. -/
namespace TypeScriptRs.Build
open Machine DepthFirst Relation List

def Orchestrator.task (o : Orchestrator) (p : Path) : Option BuildTask :=
  (o.tasks.lookup p).bind fun h => o.heap[h]?

section
variable {host : Host} {old : OldGraph} {o : Orchestrator}

theorem Created.prepared (c : Created host old o) (all : ∀ p, p ∈ o.tasks ↔ host.Listed p) : Prepared host o where
  distinct := c.distinct
  closed p member r hr := (all r.1).mpr (host.listed_reference ((all p).mp member) hr)
  ready p h found := by
    obtain ⟨t, entry, up, resolved, -⟩ := c.ready p h found
    exact ⟨t, entry, resolved, up⟩
  blank := c.blank

theorem Prepared.start (prep : Prepared host o) : Mirrors host o ⟨o, ∅, ∅⟩ State.start where
  tasks := rfl
  order := by
    rw [prep.blank.1]
    rfl
  errors := by
    rw [prep.blank.2]
    rfl
  completed p := by simp [State.start]
  analyzing p := by simp [State.start, State.seen]
  known p listed := by cases listed
  heap p member t₀ entry := by
    obtain ⟨t, entry', -, up⟩ := prep.ready p _ (Orchestrator.lookup_handle member)
    rw [entry] at entry'
    cases entry'
    refine ⟨t₀, entry, rfl, rfl, up, ?_, ?_⟩
    · cases host.watch <;> simp [State.linksTo, State.start]
    · simp [previous, State.start]

theorem roots_mirrors (prep : Prepared host o) (fuel : Nat) (projects : List ConfigName) :
    ∀ (st : Host.Setup) (s s' : State Path), Mirrors host o st s →
    (∀ config ∈ projects, host.path config ∈ o.tasks) →
    (projects.map host.path).foldlM (fun s n => (visit host.references fuel n false s).map Prod.snd) s =
      some s' →
    ∃ st', Mirrors host o st' s' ∧ projects.foldlM (fun st project =>
      (host.setupBuildTask fuel project none false [] st).bind fun result => .ok result.2) st = .ok st' := by
  induction projects with
  | nil =>
    intro st s s' m _ run
    cases run
    exact ⟨st, m, rfl⟩
  | cons config projects ih =>
    intro st s s' m known run
    rw [map_cons, foldlM_cons] at run
    obtain ⟨s₁, first, more⟩ := Option.bind_eq_some_iff.mp run
    obtain ⟨⟨found, s₂⟩, visited, rfl⟩ := Option.map_eq_some_iff.mp first
    obtain ⟨st₁, m₁, ran⟩ := setupBuildTask_mirrors prep fuel config none false [] st s s₂ found m
      (known config (by simp)) visited
    have result : (visitResult host o none (host.path config) found st₁).2 = st₁ := by
      unfold visitResult Host.linkDownStream
      cases found <;> cases host.watch <;> rfl
    obtain ⟨st', m', rest⟩ := ih st₁ s₂ s' m₁ (fun q hq => known q (by simp [hq])) more
    refine ⟨st', m', ?_⟩
    rw [foldlM_cons, ran, Outcome.monad_bind, Outcome.bind_ok, Outcome.bind_ok, result]
    exact rest

theorem generateGraph_mirrors (host : Host) (old : OldGraph) : ∃ o st s, Created host old o ∧ (∀ p, p ∈ o.tasks ↔ host.Listed p) ∧
      host.generateGraph old.tasks ⟨∅, old.heap, [], []⟩ = .ok st.orchestrator ∧
      visitAll host.references host.fuel host.roots = some s ∧
      Searched host.references host.roots s ∧ Mirrors host o st s := by
  obtain ⟨o, made, created, all⟩ := createBuildTasks_spec host old
  have prep := created.prepared all
  obtain ⟨s, ran, searched⟩ := visitAll_spec (U := host.resolvedProjectReference.keys)
    (fun _ absent => host.references_of_missing absent) host.roots (Nat.lt_succ_self _)
  have root : ∀ config ∈ host.resolvedProjectPaths, host.path config ∈ o.tasks := fun config member =>
    (all _).mpr ⟨host.path config, mem_map.mpr ⟨config, member, rfl⟩, .refl⟩
  obtain ⟨st, m, run⟩ := roots_mirrors prep host.fuel host.resolvedProjectPaths _ _ s prep.start root ran
  refine ⟨o, st, s, created, all, ?_, ran, searched, m⟩
  rw [Host.generateGraph, made, Outcome.bind_ok, run]
  rfl
end

/-- The traversal visits a project outside a circular context: the references it followed
to get there are all unmarked. -/
def OutsideCircular (s : State Path) (p : Path) : Prop := (p, false) ∈ s.discovered

/-- The links upward of a project: its references to the projects listed before it. -/
def precedingReferences (host : Host) (o : Orchestrator) (p : Path) : List UpstreamTask :=
  (host.references p).zipIdx.filterMap fun r =>
    if r.1.1 ∈ before (o.order.map host.path) p then some ⟨o.handle r.1.1, r.2⟩ else none

theorem Mirrors.task {host : Host} {o : Orchestrator} {st : Host.Setup} {s : State Path}
    (m : Mirrors host o st s) (prep : Prepared host o) {p : Path} (member : p ∈ o.tasks) :
    ∃ t₀ t, o.heap[o.handle p]? = some t₀ ∧ st.orchestrator.task p = some t ∧ Linked host o s s p t₀ t := by
  obtain ⟨t₀, entry₀, -⟩ := prep.ready p _ (Orchestrator.lookup_handle member)
  obtain ⟨t, entry, linked⟩ := m.heap p member t₀ entry₀
  refine ⟨t₀, t, entry₀, ?_, linked⟩
  rw [Orchestrator.task, m.tasks, Orchestrator.lookup_handle member]
  exact entry

/-- Every reachable project is listed once, after the references that its links upward
name. Without a reported cycle these are all its unmarked references, if it was visited
outside a circular context, and a cycle is reported exactly when unmarked references of
such projects form one. -/
theorem generateGraph_order (host : Host) (old : OldGraph) :
    ∃ o s, host.generateGraph old.tasks ⟨∅, old.heap, [], []⟩ = .ok o ∧
      visitAll host.references host.fuel host.roots = some s ∧
      (o.order.map host.path).Nodup ∧ (∀ p, p ∈ o.order.map host.path ↔ host.Listed p) ∧
      (∀ p, host.Listed p → ∃ t, o.task p = some t ∧ t.upStream = precedingReferences host o p) ∧
      (∀ p, host.Listed p → OutsideCircular s p ∨ Below host.references host.Listed p) ∧
      (o.errors = [] → ∀ p, OutsideCircular s p → ∀ r ∈ host.references p, r.2 = false →
        r.1 ∈ before (o.order.map host.path) p) ∧
      (o.errors ≠ [] ↔ ∃ p, TransGen (fun a b => OutsideCircular s a ∧ (b, false) ∈ host.references a) p p) := by
  obtain ⟨o, st, s, created, all, run, ran, searched, m⟩ := generateGraph_mirrors host old
  have quiet : st.orchestrator.errors = [] ↔ s.cycles = [] := by
    rw [← length_eq_zero_iff, m.errors, length_eq_zero_iff]
  refine ⟨st.orchestrator, s, run, ran, ?_, ?_, ?_, ?_, ?_, ?_⟩
  · rw [m.order]
    exact searched.nodup
  · rw [m.order]
    exact searched.order_iff
  · intro p listed
    obtain ⟨t₀, t, -, entry, linked⟩ := m.task (created.prepared all) ((all p).mpr listed)
    refine ⟨t, entry, ?_⟩
    rw [linked.upStream, searched.links p ((searched.order_iff p).mpr listed), map_filterMap,
      precedingReferences, m.order]
    refine filterMap_congr fun r _ => ?_
    simp only [Orchestrator.handle, m.tasks]
    split <;> rfl
  · intro p listed
    have seen : p ∈ s.seen := (searched.seen_iff p).mpr ((searched.order_iff p).mpr listed)
    obtain ⟨⟨q, marked⟩, visited, rfl⟩ := mem_map.mp seen
    cases marked with
    | false => exact .inl visited
    | true => exact .inr (searched.marked q visited)
  · intro none p outside r hr unmarked
    rw [m.order]
    exact searched.ordered (quiet.mp none) p outside r hr unmarked
  · rw [ne_eq, quiet]
    exact searched.cyclic

def configA : ConfigName := ⟨"A", by decide⟩

def configB : ConfigName := ⟨"B", by decide⟩

/-- `A` refers to `B` by a marked reference, and `B` back to `A` by an unmarked one. -/
def circularPair : Host where
  resolvedProjectPaths := [configA]
  watch := false
  toPath := id
  resolvedProjectReference := (Finmap.singleton "A" [⟨configB, true⟩]).insert "B" [⟨configA, false⟩]

theorem generateGraph_circularPair :
    ∃ o, circularPair.generateGraph none newOrchestrator = .ok o ∧ o.errors = [] ∧
      o.order = [configB, configA] ∧ circularPair.references "B" = [("A", false)] ∧
      (o.task "B").map BuildTask.upStream = some [] :=
  ⟨_, rfl, rfl, rfl, rfl, rfl⟩

end TypeScriptRs.Build
