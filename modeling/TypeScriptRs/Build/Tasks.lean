import TypeScriptRs.Lib.DepthFirst
import TypeScriptRs.Build.Orchestrator

/-! The tasks of a generation: one for every reachable project. -/
namespace TypeScriptRs.Build
open Machine List

namespace Host

variable (host : Host)

def references (p : Path) : List (Path × Bool) :=
  ((host.resolvedProjectReference.lookup p).getD []).map fun r => (host.path r.config, r.circular)

def roots : List Path := host.resolvedProjectPaths.map host.path

def Listed (p : Path) : Prop := DepthFirst.Reachable host.references host.roots p

theorem references_of_missing {p : Path} (missing : p ∉ host.resolvedProjectReference.keys) : host.references p = [] := by
  have none : host.resolvedProjectReference.lookup p = none := by
    rwa [Finmap.lookup_eq_none, ← Finmap.mem_keys]
  simp [references, none]

theorem listed_reference {p : Path} (listed : host.Listed p) {r : Path × Bool}
    (member : r ∈ host.references p) : host.Listed r.1 := by
  obtain ⟨root, start, path⟩ := listed
  exact ⟨root, start, path.tail ⟨r.2, member⟩⟩

end Host

structure SameLinks (t t₀ : BuildTask) : Prop where
  dirty : t.dirty = t₀.dirty
  downStream : t.downStream = t₀.downStream
  prevReporter : t.prevReporter = t₀.prevReporter

structure Distinct (o : Orchestrator) : Prop where
  valid : ∀ p h, o.tasks.lookup p = some h → h < o.heap.length
  injective : ∀ p q h, o.tasks.lookup p = some h → o.tasks.lookup q = some h → p = q

structure OldGraph where
  tasks : Option (HashMap Path Nat)
  heap : List BuildTask
  valid : ∀ old p h, tasks = some old → old.lookup p = some h → h < heap.length
  injective : ∀ old p q h, tasks = some old → old.lookup p = some h → old.lookup q = some h → p = q

namespace OldGraph

def reused (old : OldGraph) (p : Path) : Option Nat :=
  Orchestrator.reusable ⟨∅, old.heap, [], []⟩ old.tasks p

theorem reused_spec (old : OldGraph) {p : Path} {h : Nat} (here : old.reused p = some h) :
    ∃ tasks t₀, old.tasks = some tasks ∧ tasks.lookup p = some h ∧ old.heap[h]? = some t₀ ∧
      t₀.dirty = false := by
  simp only [reused, Orchestrator.reusable, Option.filter_eq_some_iff, Option.bind_eq_some_iff] at here
  obtain ⟨⟨tasks, some, found⟩, clean⟩ := here
  cases entry : old.heap[h]? with
  | none => simp [entry] at clean
  | some t₀ => exact ⟨tasks, t₀, some, found, rfl, by simpa [entry] using clean⟩

end OldGraph

structure Created (host : Host) (old : OldGraph) (o : Orchestrator) : Prop where
  blank : o.order = [] ∧ o.errors = []
  listed : ∀ p ∈ o.tasks, host.Listed p
  distinct : Distinct o
  kept : ∀ (h : Nat) t₀, old.heap[h]? = some t₀ → ∃ t, o.heap[h]? = some t ∧ SameLinks t t₀
  ready : ∀ p h, o.tasks.lookup p = some h → ∃ t, o.heap[h]? = some t ∧ t.upStream = [] ∧
    t.resolved = host.resolvedProjectReference.lookup p ∧
    (match old.reused p with
      | some existing => h = existing
      | none => old.heap.length ≤ h ∧ t.downStream = [] ∧ t.prevReporter = none)

variable {host : Host} {old : OldGraph} {o : Orchestrator} {h : Nat} {p : Path} {o' : Orchestrator}

theorem Created.reusable (c : Created host old o) (p : Path) : o.reusable old.tasks p = old.reused p := by
  unfold OldGraph.reused Orchestrator.reusable
  cases found : old.tasks.bind fun tasks => tasks.lookup p with
  | none => rfl
  | some h =>
    obtain ⟨tasks, some, lookup⟩ := Option.bind_eq_some_iff.mp found
    have bound := old.valid tasks p h some lookup
    obtain ⟨t, entry, same⟩ := c.kept h _ (List.getElem?_eq_getElem bound)
    simp [Option.filter, entry, same.dirty, bound]

theorem getElem_modify {heap : List BuildTask} {f : BuildTask → BuildTask} {t : BuildTask}
    (entry : heap[h]? = some t) (h' : Nat) : (heap.modify h f)[h']? = if h' = h then some (f t) else heap[h']? := by
  by_cases same : h' = h
  · simp [same, entry]
  · simp [same, Ne.symm same]

theorem Created.takeTask (c : Created host old o) (absent : o.tasks.lookup p = none)
    (config : ConfigName) : ∃ h t, (o.takeTask old.tasks p config).1 = h ∧
      (o.takeTask old.tasks p config).2.tasks = o.tasks ∧
      (o.takeTask old.tasks p config).2.heap[h]? = some t ∧
      (∀ (h' : Nat) t', o.heap[h']? = some t' → (o.takeTask old.tasks p config).2.heap[h']? = some t') ∧
      (∀ q, o.tasks.lookup q ≠ some h) ∧
      (match old.reused p with
        | some existing => h = existing
        | none => old.heap.length ≤ h ∧ t.downStream = [] ∧ t.prevReporter = none) ∧
      (∀ t₀, old.heap[h]? = some t₀ → SameLinks t t₀) := by
  have longer : old.heap.length ≤ o.heap.length := by
    by_contra shorter
    push Not at shorter
    obtain ⟨t, entry, -⟩ := c.kept o.heap.length _ (List.getElem?_eq_getElem shorter)
    simp at entry
  unfold Orchestrator.takeTask
  rw [c.reusable p]
  cases reused : old.reused p with
  | some h =>
    obtain ⟨tasks, t₀, some, lookup, entry₀, clean⟩ := old.reused_spec reused
    obtain ⟨t, entry, same⟩ := c.kept h t₀ entry₀
    refine ⟨h, t, rfl, rfl, entry, fun _ _ e => e, fun q taken => ?_, rfl, fun t₁ e => ?_⟩
    · obtain ⟨t', entry', -, -, origin⟩ := c.ready q h taken
      cases again : old.reused q with
      | some existing =>
        rw [again] at origin
        obtain ⟨tasks', -, some', lookup', -⟩ := old.reused_spec again
        obtain rfl : tasks = tasks' := Option.some.inj (some.symm.trans some')
        have equal := old.injective tasks p q h some lookup (origin ▸ lookup')
        rw [equal, taken] at absent
        cases absent
      | none =>
        rw [again] at origin
        have bound := old.valid tasks p h some lookup
        exact absurd origin.1 (by omega)
    · rw [entry₀] at e
      cases e
      exact same
  | none =>
    refine ⟨o.heap.length, BuildTask.new config, rfl, rfl, by simp, fun h' t' e => ?_, fun q taken => ?_,
      ⟨longer, rfl, rfl⟩, fun t₀ e => ?_⟩
    · have bound : h' < o.heap.length := (List.getElem?_eq_some_iff.mp e).1
      simp only [List.getElem?_append_left bound, e]
    · have := c.distinct.valid q _ taken
      omega
    · rw [List.getElem?_eq_none longer] at e
      cases e

theorem Created.startTask (c : Created host old o) {config : ConfigName}
    (absent : o.tasks.lookup (host.path config) = none) (listed : host.Listed (host.path config)) :
    Created host old (host.startTask old.tasks o config) ∧
    ∀ q, (host.startTask old.tasks o config).tasks.lookup q =
      if q = host.path config then some (o.takeTask old.tasks (host.path config) config).1
      else o.tasks.lookup q := by
  obtain ⟨h, t, handle, tasks, entry, kept, unused, origin, links⟩ := c.takeTask absent config
  let made := (o.takeTask old.tasks (host.path config) config).2
  have heap : ∀ h' : Nat, (host.startTask old.tasks o config).heap[h']? = if h' = h
      then some { t with resolved := host.resolvedProjectReference.lookup (host.path config), upStream := [] }
      else made.heap[h']? := by
    intro h'
    simp only [Host.startTask, Orchestrator.updateTask, handle]
    exact getElem_modify entry h'
  have lookup : ∀ q, (host.startTask old.tasks o config).tasks.lookup q =
      if q = host.path config then some h else o.tasks.lookup q := by
    intro q
    simp only [Host.startTask, Orchestrator.updateTask, handle, tasks]
    exact HashMap.lookup_insert_if _ _ _ _
  have owner : ∀ {q h'}, (host.startTask old.tasks o config).tasks.lookup q = some h' →
      (q = host.path config ∧ h' = h) ∨ (o.tasks.lookup q = some h' ∧ h' ≠ h) := by
    intro q h' found
    rw [lookup] at found
    split at found
    · rename_i same
      exact .inl ⟨same, (Option.some.inj found).symm⟩
    · exact .inr ⟨found, fun same => unused q (same ▸ found)⟩
  have blank : (host.startTask old.tasks o config).order = o.order ∧
      (host.startTask old.tasks o config).errors = o.errors := by
    simp only [Host.startTask, Orchestrator.updateTask, Orchestrator.takeTask]
    cases o.reusable old.tasks (host.path config) <;> exact ⟨rfl, rfl⟩
  refine ⟨⟨by rw [blank.1, blank.2]; exact c.blank, ?_, ⟨?_, ?_⟩, ?_, ?_⟩, fun q => by rw [lookup, handle]⟩
  · intro q member
    rw [← Finmap.lookup_isSome, lookup] at member
    split at member
    · rename_i same
      exact same ▸ listed
    · exact c.listed q (Finmap.lookup_isSome.mp member)
  · intro q h' found
    have entry' : (host.startTask old.tasks o config).heap[h']?.isSome := by
      rw [heap]
      rcases owner found with ⟨-, rfl⟩ | ⟨before, other⟩
      · simp
      · rw [if_neg other, kept h' _ (List.getElem?_eq_getElem (c.distinct.valid q h' before))]
        rfl
    simpa using entry'
  · intro p q h' hp hq
    rcases owner hp with ⟨rfl, rfl⟩ | ⟨hp, otherP⟩
    · rcases owner hq with ⟨rfl, -⟩ | ⟨-, otherQ⟩
      · rfl
      · exact absurd rfl otherQ
    · rcases owner hq with ⟨-, same⟩ | ⟨hq, -⟩
      · exact absurd same otherP
      · exact c.distinct.injective p q h' hp hq
  · intro h' t₀ e
    rw [heap]
    split
    · rename_i same
      subst same
      have same := links t₀ e
      exact ⟨_, rfl, same.dirty, same.downStream, same.prevReporter⟩
    · obtain ⟨t', entry', same⟩ := c.kept h' t₀ e
      exact ⟨t', kept h' t' entry', same⟩
  · intro q h' found
    rw [heap]
    rcases owner found with ⟨rfl, rfl⟩ | ⟨before, other⟩
    · rw [if_pos rfl]
      exact ⟨_, rfl, rfl, rfl, origin⟩
    · rw [if_neg other]
      obtain ⟨t', entry', rest⟩ := c.ready q h' before
      exact ⟨t', kept h' t' entry', rest⟩

def uncreated (host : Host) (o : Orchestrator) : Finset Path :=
  host.resolvedProjectReference.keys.filter fun p => o.tasks.lookup p = none

/-- The tasks there were are still there, and every new one has tasks for its references. -/
structure Grown (host : Host) (o o' : Orchestrator) : Prop where
  kept : ∀ p h, o.tasks.lookup p = some h → o'.tasks.lookup p = some h
  closed : ∀ p, p ∈ o'.tasks → p ∉ o.tasks → ∀ r ∈ host.references p, r.1 ∈ o'.tasks

theorem Grown.mem (g : Grown host o o') (member : p ∈ o.tasks) : p ∈ o'.tasks := by
  obtain ⟨h, found⟩ := Finmap.mem_iff.mp member
  exact Finmap.mem_iff.mpr ⟨h, g.kept p h found⟩

theorem Grown.trans {o₁ o₂ : Orchestrator} (g : Grown host o o₁) (g' : Grown host o₁ o₂) : Grown host o o₂ where
  kept p h found := g'.kept p h (g.kept p h found)
  closed p later before r hr := by
    by_cases between : p ∈ o₁.tasks
    · exact g'.mem (g.closed p between before r hr)
    · exact g'.closed p later between r hr

theorem uncreated_card_le (g : Grown host o o') : (uncreated host o').card ≤ (uncreated host o).card := by
  refine Countdown.card_le fun p absent => ?_
  cases found : o.tasks.lookup p with
  | none => rfl
  | some h =>
    rw [g.kept p h found] at absent
    exact absent

theorem uncreated_card_lt (lookup : ∀ q, o'.tasks.lookup q = if q = p then some h else o.tasks.lookup q)
    (absent : o.tasks.lookup p = none)
    (resolved : ∃ references, host.resolvedProjectReference.lookup p = some references) :
    (uncreated host o').card < (uncreated host o).card := by
  refine Countdown.card_lt (fun q later => ?_) (Finmap.mem_keys.mpr (Finmap.mem_iff.mpr resolved)) absent fun later => ?_
  · rw [lookup] at later
    split at later
    · cases later
    · exact later
  · rw [lookup, if_pos rfl] at later
    cases later

theorem createAll (create : Orchestrator → ConfigName → Outcome Orchestrator) {fuel : Nat} (configs : List ConfigName)
    (each : ∀ config ∈ configs, ∀ o, Created host old o → (uncreated host o).card < fuel →
      ∃ o', create o config = .ok o' ∧ Created host old o' ∧ Grown host o o' ∧
        host.path config ∈ o'.tasks) :
    ∀ o, Created host old o → (uncreated host o).card < fuel →
      ∃ o', configs.foldlM create o = .ok o' ∧ Created host old o' ∧ Grown host o o' ∧
        ∀ config ∈ configs, host.path config ∈ o'.tasks := by
  induction configs with
  | nil =>
    intro o c _
    exact ⟨o, rfl, c, ⟨fun _ _ h => h, fun p now before => absurd now before⟩, by simp⟩
  | cons config configs ih =>
    intro o c enough
    obtain ⟨o₁, run, c₁, g₁, here⟩ := each config (by simp) o c enough
    obtain ⟨o₂, rest, c₂, g₂, all⟩ := ih (fun config h => each config (by simp [h])) o₁ c₁
      (lt_of_le_of_lt (uncreated_card_le g₁) enough)
    refine ⟨o₂, ?_, c₂, g₁.trans g₂, ?_⟩
    · rw [foldlM_cons, run]
      exact rest
    · intro config' member
      rcases mem_cons.mp member with rfl | member
      · exact g₂.mem here
      · exact all config' member

theorem createBuildTask_spec (fuel : Nat) : ∀ (config : ConfigName) (o : Orchestrator), Created host old o →
    host.Listed (host.path config) → (uncreated host o).card < fuel →
    ∃ o', host.createBuildTask old.tasks fuel o config = .ok o' ∧ Created host old o' ∧
      Grown host o o' ∧ host.path config ∈ o'.tasks := by
  induction fuel with
  | zero =>
    intro config o _ _ enough
    exact absurd enough (Nat.not_lt_zero _)
  | succ fuel ih =>
    intro config o c listed enough
    unfold Host.createBuildTask
    cases found : o.tasks.lookup (host.path config) with
    | some h =>
      exact ⟨o, rfl, c, ⟨fun _ _ h => h, fun p now before => absurd now before⟩,
        Finmap.mem_iff.mpr ⟨h, found⟩⟩
    | none =>
      obtain ⟨c₁, lookup⟩ := c.startTask found listed
      have here : host.path config ∈ (host.startTask old.tasks o config).tasks :=
        Finmap.mem_iff.mpr ⟨_, by rw [lookup, if_pos rfl]⟩
      have kept : ∀ p h, o.tasks.lookup p = some h →
          (host.startTask old.tasks o config).tasks.lookup p = some h := by
        intro p h before
        have other : p ≠ host.path config := by
          rintro rfl
          rw [found] at before
          cases before
        rw [lookup, if_neg other, before]
      have added : ∀ p ∈ (host.startTask old.tasks o config).tasks, p ∉ o.tasks → p = host.path config := by
        intro p now before
        by_contra other
        rw [← Finmap.lookup_isSome, lookup, if_neg other, Finmap.lookup_isSome] at now
        exact before now
      cases resolved : host.resolvedProjectReference.lookup (host.path config) with
      | none =>
        refine ⟨_, rfl, c₁, ⟨kept, fun p now before r hr => ?_⟩, here⟩
        rw [added p now before] at hr
        simp [Host.references, resolved] at hr
      | some references =>
        have fewer : (uncreated host (host.startTask old.tasks o config)).card < fuel := by
          have := uncreated_card_lt lookup found ⟨references, resolved⟩
          omega
        have reference : ∀ r ∈ references, (host.path r.config, r.circular) ∈
            host.references (host.path config) := by
          intro r hr
          simp only [Host.references, resolved, Option.getD_some, mem_map]
          exact ⟨r, hr, rfl⟩
        obtain ⟨o₂, run, c₂, g₂, all⟩ := createAll (host.createBuildTask old.tasks fuel)
          (references.map ProjectReference.config) (by
            intro config' member o' c' enough'
            obtain ⟨r, hr, rfl⟩ := mem_map.mp member
            exact ih r.config o' c' (host.listed_reference listed (reference r hr)) enough') _ c₁ fewer
        refine ⟨o₂, run, c₂, ⟨fun p h before => g₂.kept p h (kept p h before), fun p now before r hr => ?_⟩,
          g₂.mem here⟩
        by_cases between : p ∈ (host.startTask old.tasks o config).tasks
        · rw [added p between before] at hr
          simp only [Host.references, resolved, Option.getD_some, mem_map] at hr
          obtain ⟨r', hr', rfl⟩ := hr
          exact all r'.config (mem_map.mpr ⟨r', hr', rfl⟩)
        · exact g₂.closed p now between r hr

theorem createBuildTasks_spec (host : Host) (old : OldGraph) :
    ∃ o, host.createBuildTasks old.tasks host.fuel host.resolvedProjectPaths ⟨∅, old.heap, [], []⟩ = .ok o ∧
      Created host old o ∧ ∀ p, p ∈ o.tasks ↔ host.Listed p := by
  have start : Created host old ⟨∅, old.heap, [], []⟩ := by
    refine ⟨⟨rfl, rfl⟩, fun p h => ?_, ⟨fun p h found => ?_, fun p q h found => ?_⟩, fun h t₀ e => ?_,
      fun p h found => ?_⟩
    · exact absurd h Finmap.notMem_empty
    · simp at found
    · simp at found
    · exact ⟨t₀, e, rfl, rfl, rfl⟩
    · simp at found
  have root : ∀ config ∈ host.resolvedProjectPaths, host.Listed (host.path config) := fun config member =>
    ⟨host.path config, mem_map.mpr ⟨config, member, rfl⟩, .refl⟩
  have enough : (uncreated host ⟨∅, old.heap, [], []⟩).card < host.fuel :=
    Nat.lt_succ_of_le (Finset.card_filter_le _ _)
  obtain ⟨o, run, created, grown, all⟩ := createAll (host.createBuildTask old.tasks host.fuel)
    host.resolvedProjectPaths
    (fun config member o c enough => createBuildTask_spec host.fuel config o c (root config member) enough)
    _ start enough
  refine ⟨o, run, created, fun p => ⟨created.listed p, ?_⟩⟩
  rintro ⟨r, member, path⟩
  induction path with
  | refl =>
    obtain ⟨config, root, rfl⟩ := mem_map.mp member
    exact all config root
  | tail _ edge ih =>
    obtain ⟨circular, reference⟩ := edge
    exact grown.closed _ ih Finmap.notMem_empty _ reference

end TypeScriptRs.Build
