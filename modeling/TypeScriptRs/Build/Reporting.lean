import TypeScriptRs.Build.Graph

/-! The reporting chain and the links downward over the generations of watch mode. -/
namespace TypeScriptRs.Build
open Machine DepthFirst List

variable {host : Host} {o : Orchestrator}

/-- A task whose config changed is marked before the next generation. -/
def Orchestrator.resetConfig (o : Orchestrator) (path : Path) : Orchestrator :=
  match o.tasks.lookup path with
  | some task => o.updateTask task fun t => { t with dirty := true }
  | none => o

def Orchestrator.resetConfigs (o : Orchestrator) (changed : List Path) : Orchestrator :=
  changed.foldl Orchestrator.resetConfig o

def Orchestrator.scheduled (o : Orchestrator) (host : Host) : List Nat :=
  o.order.map fun config => o.handle (host.path config)

/-- Each task reports after the one before it, and its links downward are the links
upward reversed. -/
structure Chained (host : Host) (o : Orchestrator) : Prop where
  reported : ∀ i task, (o.scheduled host)[i]? = some task → ∃ t, o.heap[task]? = some t ∧
    t.prevReporter = if i = 0 then none else (o.scheduled host)[i - 1]?
  reversed : ∀ task ∈ o.scheduled host, ∃ t, o.heap[task]? = some t ∧ t.downStream.Nodup ∧
    ∀ down, down ∈ t.downStream ↔ down ∈ o.scheduled host ∧
      ∃ u, o.heap[down]? = some u ∧ task ∈ u.upStream.map UpstreamTask.task

def Host.firstProject (host : Host) : Option Path :=
  host.roots.head?.map (descend host.references host.fuel [])

/-- What a generation needs of the graph before it: the tasks it uses again have no links
downward, the first one to report was first before, and no project refers twice to the
same one. -/
structure Permitted (host : Host) (o : Orchestrator) : Prop where
  distinct : ∀ p, host.Listed p → ((host.references p).map Prod.fst).Nodup
  downStream : ∀ p task t, host.Listed p → o.reusable (some o.tasks) p = some task →
    o.heap[task]? = some t → t.downStream = []
  prevReporter : ∀ p task t, host.firstProject = some p → o.reusable (some o.tasks) p = some task →
    o.heap[task]? = some t → t.prevReporter = none

/-- The graphs that watch mode reaches when every generation is permitted. -/
inductive Watched : Host → Orchestrator → Prop
  | start {host : Host} {o : Orchestrator} (watch : host.watch = true)
      (permitted : Permitted host newOrchestrator)
      (run : host.generateGraph none newOrchestrator = .ok o) : Watched host o
  | again {host next : Host} {o o' : Orchestrator} (changed : List Path) (before : Watched host o)
      (watch : next.watch = true) (permitted : Permitted next (o.resetConfigs changed))
      (run : next.generateGraphReusingOldTasks (o.resetConfigs changed) = .ok o') : Watched next o'

section
variable {host : Host} {old : OldGraph} {o : Orchestrator} {st : Host.Setup} {s : State Path}

theorem Mirrors.distinct (m : Mirrors host o st s) (prep : Prepared host o) : Distinct st.orchestrator where
  valid p h found := by
    rw [m.tasks] at found
    have member : p ∈ o.tasks := Finmap.mem_iff.mpr ⟨h, found⟩
    obtain ⟨t₀, t, -, entry, -⟩ := m.task prep member
    rw [Orchestrator.task, m.tasks, found] at entry
    exact (List.getElem?_eq_some_iff.mp entry).1
  injective p q h hp hq := by
    rw [m.tasks] at hp hq
    exact prep.distinct.injective p q h hp hq

theorem Mirrors.scheduled (m : Mirrors host o st s) : st.orchestrator.scheduled host = s.order.map o.handle := by
  rw [← m.order, map_map]
  refine map_congr_left fun config _ => ?_
  simp only [Function.comp_apply, Orchestrator.handle, m.tasks]

theorem Created.inherits (c : Created host old o) {p : Path} {t₀ : BuildTask}
    (member : p ∈ o.tasks) (entry : o.heap[o.handle p]? = some t₀) :
    (t₀.downStream = [] ∧ t₀.prevReporter = none) ∨
    ∃ task t, old.reused p = some task ∧ old.heap[task]? = some t ∧ SameLinks t₀ t := by
  obtain ⟨t, found, -, -, origin⟩ := c.ready p _ (Orchestrator.lookup_handle member)
  rw [entry] at found
  cases found
  cases reused : old.reused p with
  | none =>
    rw [reused] at origin
    exact .inl origin.2
  | some task =>
    rw [reused] at origin
    obtain ⟨-, t, -, -, there, -⟩ := old.reused_spec reused
    obtain ⟨t', now, same⟩ := c.kept task t there
    rw [← origin, entry] at now
    cases now
    exact .inr ⟨task, t, rfl, there, same⟩

theorem Mirrors.linked_iff (m : Mirrors host o st s) (prep : Prepared host o)
    (searched : Searched host.references host.roots s) {p : Path} (listed : p ∈ s.order) (down : Nat) :
    down ∈ (s.linksTo p).map o.handle ↔ down ∈ s.order.map o.handle ∧
      ∃ u, st.orchestrator.heap[down]? = some u ∧ o.handle p ∈ u.upStream.map UpstreamTask.task := by
  have entry : ∀ q ∈ s.order, ∃ u, st.orchestrator.heap[o.handle q]? = some u ∧
      u.upStream.map UpstreamTask.task = (s.linksOf q).map fun l => o.handle l.2 := by
    intro q hq
    obtain ⟨t₀, here, -⟩ := prep.ready q _ (Orchestrator.lookup_handle (m.known q hq))
    obtain ⟨u, now, linked⟩ := m.heap q (m.known q hq) t₀ here
    refine ⟨u, now, ?_⟩
    rw [linked.upStream, map_map]
    rfl
  constructor
  · intro member
    obtain ⟨q, linked, rfl⟩ := mem_map.mp member
    obtain ⟨index, link⟩ := mem_linksTo.mp linked
    have hq : q ∈ s.order := by
      by_contra absent
      rw [searched.fresh q absent] at link
      cases link
    obtain ⟨u, now, up⟩ := entry q hq
    refine ⟨mem_map.mpr ⟨q, hq, rfl⟩, u, now, ?_⟩
    rw [up]
    exact mem_map.mpr ⟨(index, p), link, rfl⟩
  rintro ⟨member, u, now, up⟩
  obtain ⟨q, hq, rfl⟩ := mem_map.mp member
  obtain ⟨u', now', up'⟩ := entry q hq
  rw [now] at now'
  cases now'
  rw [up'] at up
  obtain ⟨⟨index, c⟩, link, same⟩ := mem_map.mp up
  have child : c ∈ s.order := by
    have preceding : c ∈ before s.order q := by
      have member : c ∈ (s.linksOf q).map Prod.snd := mem_map.mpr ⟨(index, c), link, rfl⟩
      rw [searched.children hq] at member
      simpa using (mem_filter.mp member).2
    exact before_mem preceding
  have equal : c = p := by
    by_contra other
    exact prep.handle_ne (m.known p listed) (m.known c child) other same
  subst equal
  exact mem_map.mpr ⟨q, mem_linksTo.mpr ⟨index, link⟩, rfl⟩

theorem Mirrors.chained (m : Mirrors host o st s) (prep : Prepared host o) (watch : host.watch = true)
    (searched : Searched host.references host.roots s)
    (distinct : ∀ p, host.Listed p → ((host.references p).map Prod.fst).Nodup)
    (unlinked : ∀ p t₀, p ∈ s.order → o.heap[o.handle p]? = some t₀ → t₀.downStream = [])
    (first : ∀ p t₀, s.order.head? = some p → o.heap[o.handle p]? = some t₀ → t₀.prevReporter = none) :
    Chained host st.orchestrator where
  reported i task found := by
    rw [m.scheduled, List.getElem?_map] at found
    obtain ⟨p, here, rfl⟩ := Option.map_eq_some_iff.mp found
    obtain ⟨inside, rfl⟩ := List.getElem?_eq_some_iff.mp here
    have member := m.known _ (getElem_mem inside)
    obtain ⟨t₀, entry₀, -⟩ := prep.ready _ _ (Orchestrator.lookup_handle member)
    obtain ⟨t, entry, linked⟩ := m.heap _ member t₀ entry₀
    refine ⟨t, entry, ?_⟩
    rw [linked.prevReporter, previous_getElem searched.nodup i inside, m.scheduled, List.getElem?_map]
    by_cases start : i = 0
    · subst start
      rw [if_pos rfl, if_pos rfl, first _ t₀ (by rw [List.head?_eq_getElem?, here]) entry₀]
      rfl
    · rw [if_neg start, if_neg start, List.getElem?_eq_getElem (by omega)]
      rfl
  reversed task member := by
    rw [m.scheduled] at member
    obtain ⟨p, listed, rfl⟩ := mem_map.mp member
    obtain ⟨t₀, entry₀, -⟩ := prep.ready _ _ (Orchestrator.lookup_handle (m.known p listed))
    obtain ⟨t, entry, linked⟩ := m.heap p (m.known p listed) t₀ entry₀
    have down : t.downStream = (s.linksTo p).map o.handle := by
      rw [linked.downStream, unlinked p t₀ listed entry₀, watch, nil_append, if_pos rfl]
    have parents : ∀ q ∈ s.linksTo p, q ∈ o.tasks := by
      intro q hq
      obtain ⟨index, link⟩ := mem_linksTo.mp hq
      refine m.known q ?_
      by_contra absent
      rw [searched.fresh q absent] at link
      cases link
    refine ⟨t, entry, ?_, fun d => ?_⟩
    · rw [down]
      refine List.Nodup.map_on (fun a ha b hb same => ?_) (searched.linksTo_nodup distinct p)
      by_contra other
      exact prep.handle_ne (parents b hb) (parents a ha) other same
    · rw [down, m.scheduled]
      exact m.linked_iff prep searched listed d
end

def Distinct.oldGraph {o : Orchestrator} (distinct : Distinct o) : OldGraph where
  tasks := some o.tasks
  heap := o.heap
  valid _ p h same found := distinct.valid p h (Option.some.inj same ▸ found)
  injective _ p q h same hp hq :=
    distinct.injective p q h (Option.some.inj same ▸ hp) (Option.some.inj same ▸ hq)

theorem generateGraph_chained (watch : host.watch = true) (old : OldGraph)
    (distinct : ∀ p, host.Listed p → ((host.references p).map Prod.fst).Nodup)
    (downStream : ∀ p task t, host.Listed p → old.reused p = some task → old.heap[task]? = some t → t.downStream = [])
    (prevReporter : ∀ p task t, host.firstProject = some p → old.reused p = some task →
      old.heap[task]? = some t → t.prevReporter = none) :
    ∃ o, host.generateGraph old.tasks ⟨∅, old.heap, [], []⟩ = .ok o ∧ Chained host o ∧ Distinct o := by
  obtain ⟨o, st, s, created, all, run, ran, searched, m⟩ := generateGraph_mirrors host old
  have prep := created.prepared all
  refine ⟨st.orchestrator, run, ?_, m.distinct prep⟩
  apply m.chained prep watch searched distinct
  · intro p t₀ listed entry
    rcases created.inherits (m.known p listed) entry with fresh | ⟨task, t, reused, there, same⟩
    · exact fresh.1
    · rw [same.downStream]
      exact downStream p task t ((searched.order_iff p).mp listed) reused there
  intro p t₀ head entry
  have listed : p ∈ s.order := mem_of_head? head
  rcases created.inherits (m.known p listed) entry with fresh | ⟨task, t, reused, there, same⟩
  · exact fresh.2
  · rw [same.prevReporter]
    rw [visitAll_first ran] at head
    exact prevReporter p task t head reused there

theorem Distinct.resetConfig (distinct : Distinct o) (path : Path) : Distinct (o.resetConfig path) := by
  unfold Orchestrator.resetConfig
  cases o.tasks.lookup path with
  | none => exact distinct
  | some task =>
    constructor
    · intro q h found
      simpa [Orchestrator.updateTask] using distinct.valid q h found
    · exact distinct.injective

theorem Distinct.resetConfigs (distinct : Distinct o) (changed : List Path) : Distinct (o.resetConfigs changed) := by
  induction changed generalizing o with
  | nil => exact distinct
  | cons p changed ih => exact ih (distinct.resetConfig p)

def emptyGraph : OldGraph := ⟨none, [], by simp, by simp⟩

theorem Permitted.start (permitted : Permitted host newOrchestrator)
    (watch : host.watch = true) (run : host.generateGraph none newOrchestrator = .ok o) :
    Chained host o ∧ Distinct o := by
  have unused : ∀ p, emptyGraph.reused p = none := fun p => rfl
  obtain ⟨o', run', chained, distinct⟩ := generateGraph_chained watch emptyGraph permitted.distinct
    (fun p task t _ reused => by cases (unused p).symm.trans reused)
    (fun p task t _ reused => by cases (unused p).symm.trans reused)
  cases run.symm.trans run'
  exact ⟨chained, distinct⟩

theorem Permitted.again {o' : Orchestrator} (permitted : Permitted host o) (watch : host.watch = true) (distinct : Distinct o)
    (run : host.generateGraphReusingOldTasks o = .ok o') : Chained host o' ∧ Distinct o' := by
  obtain ⟨o'', run', chained, distinct'⟩ := generateGraph_chained watch distinct.oldGraph permitted.distinct
    permitted.downStream permitted.prevReporter
  cases run.symm.trans run'
  exact ⟨chained, distinct'⟩

theorem Watched.distinct (watched : Watched host o) : Distinct o := by
  induction watched with
  | start watch permitted run => exact (permitted.start watch run).2
  | again changed _ watch permitted run ih => exact (permitted.again watch (ih.resetConfigs changed) run).2

/-- Every graph that watch mode reaches by permitted generations has its reporting chain,
and a next generation always ends. -/
theorem watched_chained {host : Host} {o : Orchestrator} (watched : Watched host o) :
    Chained host o ∧ ∀ (next : Host) (changed : List Path),
      ∃ o', next.generateGraphReusingOldTasks (o.resetConfigs changed) = .ok o' := by
  constructor
  · cases watched with
    | start watch permitted run => exact (permitted.start watch run).1
    | again changed before watch permitted run =>
      exact (permitted.again watch (before.distinct.resetConfigs changed) run).1
  · intro next changed
    obtain ⟨-, st, -, -, -, run, -⟩ := generateGraph_mirrors next (watched.distinct.resetConfigs changed).oldGraph
    exact ⟨st.orchestrator, run⟩

/-- `A` in watch mode, with the given references. -/
def watchedA (references : List ProjectReference) : Host where
  resolvedProjectPaths := [configA]
  watch := true
  toPath := id
  resolvedProjectReference := Finmap.singleton "A" references

theorem watchedA_references (references : List ProjectReference) (p : Path) : (watchedA references).references p =
      if p = "A" then references.map fun r => (r.config.text, r.circular) else [] := by
  unfold Host.references watchedA
  by_cases same : p = "A"
  · subst same
    rfl
  · rw [if_neg same, Finmap.lookup_eq_none.mpr (by simpa using same)]
    rfl

/-- The first graph of `A` referring to `B`. -/
def graphAB : Orchestrator where
  tasks := (Finmap.singleton "A" 0).insert "B" 1
  heap := [⟨configA, some [⟨configB, false⟩], [⟨1, 0⟩], [], some 1, false⟩, ⟨configB, none, [], [0], none, false⟩]
  order := [configB, configA]
  errors := []

/-- The config of `B` changes, and the task of `A` is used again. -/
theorem watched_changedB : ∃ o, Watched (watchedA [⟨configB, false⟩]) o ∧
    o.scheduled (watchedA [⟨configB, false⟩]) = [2, 0] ∧ Chained (watchedA [⟨configB, false⟩]) o := by
  have distinct : ∀ p, (((watchedA [⟨configB, false⟩]).references p).map Prod.fst).Nodup := by
    intro p
    rw [watchedA_references]
    split <;> decide
  have first : Permitted (watchedA [⟨configB, false⟩]) newOrchestrator := by
    constructor
    · exact fun p _ => distinct p
    · intro p task t _ reused
      cases reused
    · intro p task t _ reused
      cases reused
  have second : Permitted (watchedA [⟨configB, false⟩]) (graphAB.resetConfigs ["B"]) := by
    constructor
    · exact fun p _ => distinct p
    · intro p task t _ reused entry
      match task with
      | 0 =>
        cases entry
        rfl
      | 1 =>
        have clean := (Option.filter_eq_some_iff.mp reused).2
        cases clean
      | task + 2 => cases entry
    · intro p task t head reused
      cases head
      cases reused
  have watched := Watched.again ["B"] (.start rfl first (o := graphAB) rfl) rfl second rfl
  exact ⟨_, watched, rfl, (watched_chained watched).1⟩

def configC : ConfigName := ⟨"C", by decide⟩

/-- `A` drops its reference to `B`: the task of `C` still reports after the one of `B`, and
still links to the task of `A` that was dropped. -/
theorem droppedReference_chain :
    ∃ o o', (watchedA [⟨configB, false⟩, ⟨configC, false⟩]).generateGraph none newOrchestrator = .ok o ∧
      (watchedA [⟨configC, false⟩]).generateGraphReusingOldTasks (o.resetConfigs ["A"]) = .ok o' ∧
      o'.scheduled (watchedA [⟨configC, false⟩]) = [2, 3] ∧
      (o'.heap[2]?).map BuildTask.prevReporter = some (some 1) ∧
      (o'.heap[2]?).map BuildTask.downStream = some [0, 3] ∧
      ¬ Chained (watchedA [⟨configC, false⟩]) o' := by
  refine ⟨_, _, rfl, rfl, rfl, rfl, rfl, fun chained => ?_⟩
  obtain ⟨t, entry, none⟩ := chained.reported 0 2 rfl
  cases entry
  cases none

end TypeScriptRs.Build
