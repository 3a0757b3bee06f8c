import TypeScriptRs.Core.BreadthFirst
import TypeScriptRs.Lib.Countdown

/-! What the breadth-first search visits, in which order, and which path it returns. -/
namespace TypeScriptRs.Core
open Routes List

section
variable {K N : Type} [DecidableEq K] (search : BreadthFirstSearch K N) (visited₀ : List K) (start : N)

def BreadthFirstSearch.keepFirst (kept : List N) (n : N) : List N :=
  if ∃ m ∈ kept, search.getKey m = search.getKey n then kept else kept ++ [n]

def BreadthFirstSearch.firsts (nodes : List N) : List N := nodes.foldl search.keepFirst []

/-- The nodes of the levels before one, and the nodes that are listed for that level. -/
def BreadthFirstSearch.listed : Nat → List N × List N
  | 0 => ([], [start])
  | d + 1 =>
    let before := listed d
    let level := before.2.filter fun n => search.getKey n ∉ visited₀ ∧ ∀ m ∈ before.1, search.getKey m ≠ search.getKey n
    (before.1 ++ level, search.firsts (level.flatMap search.neighbors))

def BreadthFirstSearch.levelsBefore (d : Nat) : List N := (search.listed visited₀ start d).1

def BreadthFirstSearch.Free (n : N) : Prop := search.getKey n ∉ visited₀
end

section
variable {K N : Type} [DecidableEq K] (search : BreadthFirstSearch K N) (visited₀ : List K) (start : N)

/-- A job of a level: its path is a route of the level's length, unless its node had been visited before the search. -/
structure IsJob (length : Nat) (j : BreadthFirstSearchJob N) : Prop where
  length_eq : (createPath j).length = length
  route : search.getKey j.node ∉ visited₀ → Route search.neighbors (search.Free visited₀) start j.node (createPath j)

def IsFallback (calls : List N) (path : List N) : Prop :=
  (path = [] ∧ ∀ c ∈ calls, (search.visit c).1 = false) ∨
    ∃ before c after, calls = before ++ c :: after ∧ (∀ b ∈ before, (search.visit b).1 = false) ∧ (search.visit c).1 = true ∧
      Shortest search.neighbors (search.Free visited₀) start search.getKey c path

/-- The search within a level: the jobs that are left, those of the next level, and the calls of the levels before and of this one. -/
structure Underway (d : Nat) (jobs : List (BreadthFirstSearchJob N)) (s : Progress K N) (nextJobs : BreadthFirstSearchLevel K N)
    (mine : List N) : Prop where
  calls_eq : s.calls = search.levelsBefore visited₀ start d ++ mine
  level_eq : (search.listed visited₀ start d).2.filter
    (fun n => search.getKey n ∉ visited₀ ∧ ∀ m ∈ search.levelsBefore visited₀ start d, search.getKey m ≠ search.getKey n) =
      mine ++ (jobs.map (·.node)).filter fun n => search.getKey n ∉ s.visited
  next_eq : nextJobs.values.map (·.node) = search.firsts (mine.flatMap search.neighbors)
  visited : ∀ k, k ∈ s.visited ↔ k ∈ visited₀ ∨ ∃ c ∈ s.calls, search.getKey c = k
  distinct : (s.calls.map search.getKey).Nodup
  fresh : ∀ c ∈ s.calls, search.getKey c ∉ visited₀
  reached : ∀ c ∈ s.calls, ∃ path, Shortest search.neighbors (search.Free visited₀) start search.getKey c path ∧ path.length ≤ d + 1
  ordered : s.calls.Pairwise fun a b => ∀ path path',
    Shortest search.neighbors (search.Free visited₀) start search.getKey a path →
      Shortest search.neighbors (search.Free visited₀) start search.getKey b path' → path.length ≤ path'.length
  near : ∀ n path, Route search.neighbors (search.Free visited₀) start n path → path.length ≤ d → search.getKey n ∈ s.visited
  within : ∀ n path, Route search.neighbors (search.Free visited₀) start n path → path.length ≤ d + 1 →
    search.getKey n ∈ s.visited ∨ ∃ j ∈ jobs, search.getKey j.node = search.getKey n
  jobs_keys : (jobs.map fun j => search.getKey j.node).Nodup
  jobs_routes : ∀ j ∈ jobs, IsJob search visited₀ start (d + 1) j
  next_keys : (nextJobs.map Prod.fst).Nodup
  next_entries : ∀ entry ∈ nextJobs, entry.1 = search.getKey entry.2.node ∧ IsJob search visited₀ start (d + 2) entry.2
  closed : ∀ c ∈ s.calls, ∀ child ∈ search.neighbors c, search.getKey child ∈ s.visited ∨
    (∃ j ∈ jobs, search.getKey j.node = search.getKey child) ∨ ∃ entry ∈ nextJobs, entry.1 = search.getKey child
  first : search.getKey start ∈ s.visited ∨ ∃ j ∈ jobs, search.getKey j.node = search.getKey start
  passed : ∀ c ∈ s.calls, search.visit c ≠ (true, true)
  fallback : IsFallback search visited₀ start s.calls ((s.fallback.map createPath).getD [])
end

section
variable {K N : Type} [DecidableEq K] (search : BreadthFirstSearch K N) (j : BreadthFirstSearchJob N)
variable {nextJobs : BreadthFirstSearchLevel K N}

theorem addChild_eq (nextJobs : BreadthFirstSearchLevel K N) (child : N) : search.addChild j nextJobs child =
    if ∃ entry ∈ nextJobs, entry.1 = search.getKey child then nextJobs
    else nextJobs ++ [(search.getKey child, .mk child (some j))] := by
  have has_iff : OrderedMap.has nextJobs (search.getKey child) = true ↔ ∃ entry ∈ nextJobs, entry.1 = search.getKey child := by
    unfold OrderedMap.has
    simp
  unfold BreadthFirstSearch.addChild OrderedMap.set
  by_cases known : ∃ entry ∈ nextJobs, entry.1 = search.getKey child
  · rw [if_pos (has_iff.mpr known), if_pos known]
  · rw [if_neg (fun h => known (has_iff.mp h)), if_neg known, if_neg (fun h => known (has_iff.mp h))]

theorem mem_addChildren {children : List N} {entry : K × BreadthFirstSearchJob N}
    (listed : entry ∈ children.foldl (search.addChild j) nextJobs) :
    entry ∈ nextJobs ∨ ∃ child ∈ children, entry = (search.getKey child, .mk child (some j)) := by
  induction children generalizing nextJobs with
  | nil => exact .inl listed
  | cons child children ih =>
    rcases ih listed with old | ⟨child', listed', shape⟩
    · rw [addChild_eq] at old
      split at old
      · exact .inl old
      · rcases mem_append.mp old with older | new
        · exact .inl older
        · exact .inr ⟨child, mem_cons_self, mem_singleton.mp new⟩
    · exact .inr ⟨child', mem_cons_of_mem _ listed', shape⟩

structure Adds (children : List N) (nextJobs nextJobs' : BreadthFirstSearchLevel K N) : Prop where
  nodes : nextJobs'.values.map (·.node) = children.foldl search.keepFirst (nextJobs.values.map (·.node))
  keys : (nextJobs'.map Prod.fst).Nodup
  named : ∀ entry ∈ nextJobs', entry.1 = search.getKey entry.2.node
  kept : ∀ entry ∈ nextJobs, entry ∈ nextJobs'
  covers : ∀ child ∈ children, ∃ entry ∈ nextJobs', entry.1 = search.getKey child

theorem addChild_adds (keys : (nextJobs.map Prod.fst).Nodup)
    (named : ∀ entry ∈ nextJobs, entry.1 = search.getKey entry.2.node) (child : N) :
    Adds search [child] nextJobs (search.addChild j nextJobs child) := by
  have known_iff : (∃ entry ∈ nextJobs, entry.1 = search.getKey child) ↔
      ∃ m ∈ nextJobs.values.map (·.node), search.getKey m = search.getKey child := by
    unfold OrderedMap.values
    constructor
    · rintro ⟨entry, listed, same⟩
      refine ⟨entry.2.node, by simpa using ⟨_, _, listed, rfl⟩, ?_⟩
      rw [← same, named entry listed]
    · rintro ⟨m, listed, same⟩
      simp only [map_map, mem_map, Function.comp_apply] at listed
      obtain ⟨entry, listed, rfl⟩ := listed
      exact ⟨entry, listed, (named entry listed).trans same⟩
  rw [addChild_eq]
  by_cases known : ∃ entry ∈ nextJobs, entry.1 = search.getKey child
  · rw [if_pos known]
    constructor
    · exact (if_pos (known_iff.mp known)).symm
    · exact keys
    · exact named
    · exact fun _ => id
    · intro child' listed
      rw [mem_singleton.mp listed]
      exact known
  rw [if_neg known]
  constructor
  · have more : [child].foldl search.keepFirst (nextJobs.values.map (·.node)) = nextJobs.values.map (·.node) ++ [child] :=
      if_neg fun found => known (known_iff.mpr found)
    rw [more]
    simp [OrderedMap.values, BreadthFirstSearchJob.node]
  · rw [map_append]
    refine nodup_append'.mpr ⟨keys, nodup_singleton _, ?_⟩
    intro key old new
    obtain ⟨entry, listed, rfl⟩ := mem_map.mp old
    exact known ⟨entry, listed, mem_singleton.mp new⟩
  · intro entry listed
    rcases mem_append.mp listed with old | new
    · exact named entry old
    · rw [mem_singleton.mp new]
      rfl
  · exact fun entry listed => mem_append_left _ listed
  · intro child' listed
    rw [mem_singleton.mp listed]
    exact ⟨_, mem_append_right _ (mem_singleton.mpr rfl), rfl⟩

theorem addChildren_adds (children : List N) (keys : (nextJobs.map Prod.fst).Nodup)
    (named : ∀ entry ∈ nextJobs, entry.1 = search.getKey entry.2.node) :
    Adds search children nextJobs (children.foldl (search.addChild j) nextJobs) := by
  induction children generalizing nextJobs with
  | nil => exact ⟨rfl, keys, named, fun _ => id, by simp⟩
  | cons child children ih =>
    have first := addChild_adds search j keys named child
    have rest := ih first.keys first.named
    rw [foldl_cons]
    constructor
    · rw [rest.nodes, first.nodes]
      rfl
    · exact rest.keys
    · exact rest.named
    · exact fun entry listed => rest.kept entry (first.kept entry listed)
    intro child' listed
    rcases mem_cons.mp listed with rfl | listed
    · obtain ⟨entry, listed, same⟩ := first.covers child' (mem_singleton.mpr rfl)
      exact ⟨entry, rest.kept entry listed, same⟩
    · exact rest.covers child' listed
end

section
variable {K N : Type} [DecidableEq K] {search : BreadthFirstSearch K N} {visited₀ : List K} {start : N} {d : Nat}
  {j : BreadthFirstSearchJob N} {jobs : List (BreadthFirstSearchJob N)} {s : Progress K N} {nextJobs : BreadthFirstSearchLevel K N}
  {mine : List N}

theorem createPath_ne_nil (j : BreadthFirstSearchJob N) : createPath j ≠ [] := by
  cases j with
  | mk node parent => cases parent <;> simp [createPath]

omit [DecidableEq K] in
theorem seen_or_left {visited : List K} {k : K} (seen : search.getKey j.node ∈ visited)
    (either : k ∈ visited ∨ ∃ j' ∈ j :: jobs, search.getKey j'.node = k) :
    k ∈ visited ∨ ∃ j' ∈ jobs, search.getKey j'.node = k := by
  rcases either with old | ⟨j', listed, rfl⟩
  · exact .inl old
  · rcases mem_cons.mp listed with rfl | listed
    · exact .inl seen
    · exact .inr ⟨j', listed, rfl⟩

section
variable (now : Underway search visited₀ start d (j :: jobs) s nextJobs mine)
include now

theorem Underway.skip (seen : search.getKey j.node ∈ s.visited) : Underway search visited₀ start d jobs s nextJobs mine := by
  refine { now with level_eq := ?_, within := ?_, jobs_keys := ?_, jobs_routes := ?_, closed := ?_, first := ?_ }
  · rw [now.level_eq, map_cons, filter_cons_of_neg (by simpa using seen)]
  · exact fun n path route short => seen_or_left seen (now.within n path route short)
  · exact (nodup_cons.mp now.jobs_keys).2
  · exact fun j' listed => now.jobs_routes j' (mem_cons_of_mem _ listed)
  · intro c called child listed
    rcases now.closed c called child listed with old | level | next
    · exact .inl old
    · rcases seen_or_left seen (.inr level) with old | level
      · exact .inl old
      · exact .inr (.inl level)
    · exact .inr (.inr next)
  · exact seen_or_left seen now.first

theorem Underway.free (fresh : search.getKey j.node ∉ s.visited) :
    search.getKey j.node ∉ visited₀ := fun old => fresh ((now.visited _).mpr (.inl old))

theorem Underway.shortest (fresh : search.getKey j.node ∉ s.visited) :
    Shortest search.neighbors (search.Free visited₀) start search.getKey j.node (createPath j) := by
  have job := now.jobs_routes j mem_cons_self
  refine ⟨job.route (now.free fresh), ?_⟩
  intro n path same route
  by_contra shorter
  rw [job.length_eq] at shorter
  have seen := now.near n path route (by omega)
  rw [same] at seen
  exact fresh seen
end

omit [DecidableEq K] in
theorem IsFallback.record (now : IsFallback search visited₀ start s.calls ((s.fallback.map createPath).getD []))
    (shortest : Shortest search.neighbors (search.Free visited₀) start search.getKey j.node (createPath j)) :
    IsFallback search visited₀ start (search.record s j).calls (((search.record s j).fallback.map createPath).getD []) := by
  have calls_eq : (search.record s j).calls = s.calls ++ [j.node] := rfl
  rw [calls_eq]
  rcases now with ⟨empty, older⟩ | ⟨before, c, after, shape, older, result, shortest'⟩
  · have unset : s.fallback = none := by
      cases found : s.fallback with
      | none => rfl
      | some job =>
        rw [found] at empty
        exact absurd empty (createPath_ne_nil job)
    have fallback_eq : (search.record s j).fallback = if (search.visit j.node).1 = true then some j else none := by
      unfold BreadthFirstSearch.record
      rw [unset]
      simp
    rw [fallback_eq]
    by_cases result : (search.visit j.node).1 = true
    · rw [if_pos result]
      exact .inr ⟨s.calls, j.node, [], rfl, older, result, shortest⟩
    rw [if_neg result]
    refine .inl ⟨rfl, ?_⟩
    intro c listed
    rcases mem_append.mp listed with earlier | last
    · exact older c earlier
    · rw [mem_singleton.mp last]
      exact Bool.not_eq_true _ ▸ result
  · have fallback_eq : (search.record s j).fallback = s.fallback := by
      cases found : s.fallback with
      | none =>
        rw [found] at shortest'
        cases shortest'.1
      | some job =>
        unfold BreadthFirstSearch.record
        rw [found]
        simp
    rw [fallback_eq]
    exact .inr ⟨before, c, after ++ [j.node], by rw [shape]; simp, older, result, shortest'⟩

omit [DecidableEq K] in
theorem visited_record (k : K) : k ∈ (search.record s j).visited ↔ k = search.getKey j.node ∨ k ∈ s.visited := mem_cons

theorem left_of_call (distinct : ((j :: jobs).map fun j => search.getKey j.node).Nodup) :
    (jobs.map (·.node)).filter (fun n => search.getKey n ∉ s.visited) =
      (jobs.map (·.node)).filter fun n => search.getKey n ∉ (search.record s j).visited := by
  refine filter_congr ?_
  intro n listed
  obtain ⟨j', listed', rfl⟩ := mem_map.mp listed
  have other : search.getKey j'.node ≠ search.getKey j.node := by
    intro same
    exact (nodup_cons.mp distinct).1 (mem_map.mpr ⟨j', listed', same⟩)
  rw [decide_eq_decide, visited_record]
  simp [other]

theorem Underway.visited_call (now : Underway search visited₀ start d (j :: jobs) s nextJobs mine) (k : K) :
    k ∈ (search.record s j).visited ↔ k ∈ visited₀ ∨ ∃ c ∈ s.calls ++ [j.node], search.getKey c = k := by
  rw [visited_record, now.visited]
  constructor
  · rintro (rfl | old | ⟨c, listed, same⟩)
    · exact .inr ⟨j.node, by simp, rfl⟩
    · exact .inl old
    · exact .inr ⟨c, mem_append_left _ listed, same⟩
  rintro (old | ⟨c, listed, same⟩)
  · exact .inr (.inl old)
  · rcases mem_append.mp listed with earlier | last
    · exact .inr (.inr ⟨c, earlier, same⟩)
    · rw [mem_singleton.mp last] at same
      exact .inl same.symm

theorem Underway.call (now : Underway search visited₀ start d (j :: jobs) s nextJobs mine) (fresh : search.getKey j.node ∉ s.visited)
    (passes : search.visit j.node ≠ (true, true)) :
    Underway search visited₀ start d jobs (search.record s j) ((search.neighbors j.node).foldl (search.addChild j) nextJobs)
      (mine ++ [j.node]) := by
  have shortest := now.shortest fresh
  have free := now.free fresh
  have job := now.jobs_routes j mem_cons_self
  have named : ∀ entry ∈ nextJobs, entry.1 = search.getKey entry.2.node := fun entry listed => (now.next_entries entry listed).1
  have adds := addChildren_adds search j (search.neighbors j.node) now.next_keys named
  have calls_eq : (search.record s j).calls = s.calls ++ [j.node] := rfl
  have kept : ∀ {k : K}, k ∈ s.visited → k ∈ (search.record s j).visited := fun old => (visited_record _).mpr (.inr old)
  have others : ∀ {k : K}, k ∈ s.visited ∨ (∃ j' ∈ j :: jobs, search.getKey j'.node = k) →
      k ∈ (search.record s j).visited ∨ ∃ j' ∈ jobs, search.getKey j'.node = k :=
    fun either => seen_or_left ((visited_record _).mpr (.inl rfl)) (either.imp_left kept)
  have each : ∀ {P : N → Prop}, (∀ c ∈ s.calls, P c) → P j.node → ∀ c ∈ (search.record s j).calls, P c := by
    intro P old last c listed
    rcases mem_append.mp listed with earlier | last'
    · exact old c earlier
    · rw [mem_singleton.mp last']
      exact last
  constructor
  · rw [calls_eq, now.calls_eq, append_assoc]
  · rw [now.level_eq, map_cons, filter_cons_of_pos (by simpa using fresh), append_assoc,
      left_of_call now.jobs_keys]
    rfl
  · rw [adds.nodes, now.next_eq]
    unfold BreadthFirstSearch.firsts
    rw [flatMap_append, foldl_append, flatMap_singleton]
  · exact now.visited_call
  · rw [calls_eq, map_append]
    refine nodup_append'.mpr ⟨now.distinct, nodup_singleton _, ?_⟩
    intro k old last
    obtain ⟨c, listed, rfl⟩ := mem_map.mp old
    have same : search.getKey c = search.getKey j.node := mem_singleton.mp last
    exact fresh ((now.visited _).mpr (.inr ⟨c, listed, same⟩))
  · exact each now.fresh free
  · exact each now.reached ⟨createPath j, shortest, Nat.le_of_eq job.length_eq⟩
  · refine pairwise_append.mpr ⟨now.ordered, pairwise_singleton _ _, ?_⟩
    intro a listed b last path path' shortestA shortestB
    rw [mem_singleton.mp last] at shortestB
    obtain ⟨path₁, shortest₁, short⟩ := now.reached a listed
    rw [shortestA.length_eq shortest₁, shortestB.length_eq shortest, job.length_eq]
    exact short
  · exact fun n path route short => kept (now.near n path route short)
  · exact fun n path route short => others (now.within n path route short)
  · exact (nodup_cons.mp now.jobs_keys).2
  · exact fun j' listed => now.jobs_routes j' (mem_cons_of_mem _ listed)
  · exact adds.keys
  · intro entry listed
    refine ⟨adds.named entry listed, ?_⟩
    rcases mem_addChildren search j listed with old | ⟨child, member, rfl⟩
    · exact (now.next_entries entry old).2
    · exact ⟨congrArg (· + 1) job.length_eq, fun free' => .step shortest.1 member free'⟩
  · have here : ∀ child ∈ search.neighbors j.node, ∃ entry ∈ (search.neighbors j.node).foldl (search.addChild j) nextJobs,
        entry.1 = search.getKey child := adds.covers
    refine each ?_ fun child listed => .inr (.inr (here child listed))
    intro c called child listed
    rcases now.closed c called child listed with old | level | ⟨entry, member, same⟩
    · exact .inl (kept old)
    · rcases others (.inr level) with old | level
      · exact .inl old
      · exact .inr (.inl level)
    · exact .inr (.inr ⟨entry, adds.kept entry member, same⟩)
  · exact others now.first
  · exact each now.passed passes
  · exact now.fallback.record shortest

theorem Underway.near_next (now : Underway search visited₀ start d [] s nextJobs mine) {n : N} {path : List N}
    (route : Route search.neighbors (search.Free visited₀) start n path) (short : path.length ≤ d + 1) :
    search.getKey n ∈ s.visited := by
  rcases now.within n path route short with seen | ⟨j, listed, -⟩
  · exact seen
  · cases listed

theorem Underway.values_iff (now : Underway search visited₀ start d jobs s nextJobs mine) (k : K) :
    (∃ j ∈ nextJobs.values, search.getKey j.node = k) ↔ ∃ entry ∈ nextJobs, entry.1 = k := by
  constructor
  · rintro ⟨j, listed, rfl⟩
    obtain ⟨entry, member, rfl⟩ := mem_map.mp listed
    exact ⟨entry, member, (now.next_entries entry member).1⟩
  · rintro ⟨entry, member, rfl⟩
    exact ⟨entry.2, mem_map.mpr ⟨entry, member, rfl⟩, (now.next_entries entry member).1.symm⟩

theorem Underway.next_level (now : Underway search visited₀ start d [] s nextJobs mine) (alike : Alike search.neighbors search.getKey) :
    Underway search visited₀ start (d + 1) nextJobs.values s [] [] := by
  have level_eq := now.level_eq
  rw [map_nil, filter_nil, append_nil] at level_eq
  have before_eq : search.levelsBefore visited₀ start (d + 1) = s.calls := by
    rw [now.calls_eq, ← level_eq]
    rfl
  have listed_eq : (search.listed visited₀ start (d + 1)).2 = nextJobs.values.map (·.node) := by
    rw [now.next_eq, ← level_eq]
    rfl
  have closed : ∀ c ∈ s.calls, ∀ child ∈ search.neighbors c, search.getKey child ∈ s.visited ∨
      ∃ j ∈ nextJobs.values, search.getKey j.node = search.getKey child := by
    intro c called child listed
    rw [now.values_iff]
    rcases now.closed c called child listed with old | ⟨j, none, -⟩ | next
    · exact .inl old
    · cases none
    · exact .inr next
  have first : search.getKey start ∈ s.visited := by
    rcases now.first with seen | ⟨j, listed, -⟩
    · exact seen
    · cases listed
  constructor
  · rw [before_eq, append_nil]
  · rw [before_eq, listed_eq, nil_append]
    refine filter_congr fun n listed => ?_
    rw [decide_eq_decide, now.visited]
    simp only [not_or, not_exists, not_and]
  · rfl
  · exact now.visited
  · exact now.distinct
  · exact now.fresh
  · intro c called
    obtain ⟨path, shortest, short⟩ := now.reached c called
    exact ⟨path, shortest, Nat.le_succ_of_le short⟩
  · exact now.ordered
  · exact fun n path route short => now.near_next route short
  · intro n path route short
    cases route with
    | start here => exact .inl first
    | @step parent child path route listed here =>
      have parent_seen := now.near_next route (Nat.le_of_succ_le_succ short)
      obtain ⟨c, called, same⟩ := ((now.visited _).mp parent_seen).resolve_left route.free_end
      obtain ⟨child', listed', same'⟩ := alike parent c same.symm n listed
      rw [← same']
      exact closed c called child' listed'
  · have keys : nextJobs.values.map (fun j => search.getKey j.node) = nextJobs.map Prod.fst := by
      unfold OrderedMap.values
      rw [map_map]
      exact map_congr_left fun entry listed => (now.next_entries entry listed).1.symm
    rw [keys]
    exact now.next_keys
  · intro j listed
    obtain ⟨entry, member, rfl⟩ := mem_map.mp listed
    exact (now.next_entries entry member).2
  · exact nodup_nil
  · rintro entry ⟨⟩
  · intro c called child listed
    exact (closed c called child listed).imp_right .inl
  · exact .inl first
  · exact now.passed
  · exact now.fallback

theorem Underway.initial (search : BreadthFirstSearch K N) (visited₀ : List K) (start : N) :
    Underway search visited₀ start 0 [.mk start none] ⟨visited₀, [], none⟩ [] [] := by
  constructor
  · rfl
  · simp [BreadthFirstSearch.listed, BreadthFirstSearch.levelsBefore, BreadthFirstSearchJob.node]
  · rfl
  · simp
  · exact nodup_nil
  · simp
  · simp
  · exact List.Pairwise.nil
  · intro n path route short
    cases route <;> cases short
  · intro n path route short
    cases route with
    | start here => exact .inr ⟨_, mem_cons_self, rfl⟩
    | @step parent child path route listed here =>
      cases route <;> simp at short
  · exact nodup_singleton _
  · intro j listed
    rw [mem_singleton.mp listed]
    exact ⟨rfl, fun free => .start free⟩
  · exact nodup_nil
  · simp
  · simp
  · exact .inr ⟨_, mem_cons_self, rfl⟩
  · simp
  · exact .inl ⟨rfl, by simp⟩
end

section
variable {K N : Type} [DecidableEq K] (search : BreadthFirstSearch K N) (visited₀ : List K) (start : N)

/-- What a search returns, with the nodes that it called `visit` for. -/
structure Answer (result : BreadthFirstSearchResult N) (calls : List N) : Prop where
  distinct : (calls.map search.getKey).Nodup
  reached : ∀ c ∈ calls, ∃ path, Route search.neighbors (search.Free visited₀) start c path
  ordered : calls.Pairwise fun a b => ∀ path path',
    Shortest search.neighbors (search.Free visited₀) start search.getKey a path →
      Shortest search.neighbors (search.Free visited₀) start search.getKey b path' → path.length ≤ path'.length
  levels : ∃ d, calls <+: search.levelsBefore visited₀ start d
  stopped : result.stopped = true → ∃ before c, calls = before ++ [c] ∧ search.visit c = (true, true) ∧
    (∀ b ∈ before, search.visit b ≠ (true, true)) ∧
    Shortest search.neighbors (search.Free visited₀) start search.getKey c result.path ∧
    ∀ n path, Route search.neighbors (search.Free visited₀) start n path → path.length < result.path.length →
      ∃ b ∈ before, search.getKey b = search.getKey n
  exhausted : result.stopped = false → (∀ c ∈ calls, search.visit c ≠ (true, true)) ∧
    (∀ n path, Route search.neighbors (search.Free visited₀) start n path → ∃ c ∈ calls, search.getKey c = search.getKey n) ∧
    IsFallback search visited₀ start calls result.path

variable {search visited₀ start} {d : Nat} {jobs : List (BreadthFirstSearchJob N)} {s : Progress K N}
  {nextJobs : BreadthFirstSearchLevel K N} {mine : List N}

theorem Underway.stop {j : BreadthFirstSearchJob N} (now : Underway search visited₀ start d (j :: jobs) s nextJobs mine)
    (fresh : search.getKey j.node ∉ s.visited) (stops : search.visit j.node = (true, true)) :
    Answer search visited₀ start ⟨true, createPath j⟩ (s.calls ++ [j.node]) := by
  have shortest := now.shortest fresh
  have job := now.jobs_routes j mem_cons_self
  constructor
  · rw [map_append]
    refine nodup_append'.mpr ⟨now.distinct, nodup_singleton _, ?_⟩
    intro k old last
    obtain ⟨c, listed, rfl⟩ := mem_map.mp old
    exact fresh ((now.visited _).mpr (.inr ⟨c, listed, mem_singleton.mp last⟩))
  · intro c listed
    rcases mem_append.mp listed with earlier | last
    · obtain ⟨path, shortest', -⟩ := now.reached c earlier
      exact ⟨path, shortest'.1⟩
    · rw [mem_singleton.mp last]
      exact ⟨_, shortest.1⟩
  · refine pairwise_append.mpr ⟨now.ordered, pairwise_singleton _ _, ?_⟩
    intro a listed b last path path' shortestA shortestB
    rw [mem_singleton.mp last] at shortestB
    obtain ⟨path₁, shortest₁, short⟩ := now.reached a listed
    rw [shortestA.length_eq shortest₁, shortestB.length_eq shortest, job.length_eq]
    exact short
  · have level_eq := now.level_eq
    rw [map_cons, filter_cons_of_pos (by simpa using fresh)] at level_eq
    have whole : search.levelsBefore visited₀ start (d + 1) = search.levelsBefore visited₀ start d ++
        (mine ++ j.node :: (jobs.map (·.node)).filter fun n => search.getKey n ∉ s.visited) := by
      rw [← level_eq]
      rfl
    refine ⟨d + 1, (jobs.map (·.node)).filter fun n => search.getKey n ∉ s.visited, ?_⟩
    rw [whole, now.calls_eq]
    simp
  · intro _
    refine ⟨s.calls, j.node, rfl, stops, now.passed, shortest, ?_⟩
    intro n path route shorter
    rw [job.length_eq] at shorter
    have seen := now.near n path route (Nat.le_of_lt_succ shorter)
    exact ((now.visited _).mp seen).resolve_left route.free_end
  · intro impossible
    cases impossible

theorem Underway.level_end (now : Underway search visited₀ start d jobs s nextJobs mine) :
    (∀ s' nextJobs', search.visitLevel jobs s nextJobs = .done s' nextJobs' →
      ∃ mine', Underway search visited₀ start d [] s' nextJobs' mine') ∧
    ∀ j s', search.visitLevel jobs s nextJobs = .stopped j s' → Answer search visited₀ start ⟨true, createPath j⟩ s'.calls := by
  induction jobs generalizing s nextJobs mine with
  | nil =>
    constructor
    · intro s' nextJobs' ended
      cases ended
      exact ⟨mine, now⟩
    · intro j s' ended
      cases ended
  | cons j jobs ih =>
    unfold BreadthFirstSearch.visitLevel
    by_cases seen : search.getKey j.node ∈ s.visited
    · rw [if_pos seen]
      exact ih (now.skip seen)
    rw [if_neg seen]
    by_cases stops : search.visit j.node = (true, true)
    · rw [if_pos stops]
      constructor
      · intro s' nextJobs' ended
        cases ended
      · intro j' s' ended
        cases ended
        exact now.stop seen stops
    · rw [if_neg stops]
      exact ih (now.call seen stops)

theorem Underway.finish (now : Underway search visited₀ start d [] s [] mine) (alike : Alike search.neighbors search.getKey) :
    Answer search visited₀ start ⟨false, (s.fallback.map createPath).getD []⟩ s.calls := by
  have seen : ∀ {k : K}, (k ∈ s.visited ∨ (∃ j ∈ ([] : List (BreadthFirstSearchJob N)), search.getKey j.node = k)) → k ∈ s.visited := by
    rintro k (old | ⟨j, listed, -⟩)
    · exact old
    · cases listed
  constructor
  · exact now.distinct
  · intro c called
    obtain ⟨path, shortest, -⟩ := now.reached c called
    exact ⟨path, shortest.1⟩
  · exact now.ordered
  · have level_eq := now.level_eq
    rw [map_nil, filter_nil, append_nil] at level_eq
    refine ⟨d + 1, ?_⟩
    have whole : search.levelsBefore visited₀ start (d + 1) = s.calls := by
      rw [now.calls_eq, ← level_eq]
      rfl
    rw [whole]
  · intro impossible
    cases impossible
  intro _
  refine ⟨now.passed, ?_, now.fallback⟩
  intro n path route
  have covered : search.getKey n ∈ s.visited := by
    refine route.covered (fun k => k ∈ s.visited) alike (seen now.first) ?_
    intro m free known
    obtain ⟨c, called, same⟩ := ((now.visited _).mp known).resolve_left free
    refine ⟨c, same, ?_⟩
    intro child listed
    rcases now.closed c called child listed with old | level | ⟨entry, listed', -⟩
    · exact old
    · exact seen (.inr level)
    · cases listed'
  exact ((now.visited _).mp covered).resolve_left route.free_end
end

section
variable {K N : Type} [DecidableEq K] {search : BreadthFirstSearch K N} {visited₀ : List K} {start : N}
variable {keys : Finset K} {visited : List K} {s : Progress K N}

def IsClosed (search : BreadthFirstSearch K N) (keys : Finset K) : Prop :=
  ∀ n, search.getKey n ∈ keys → ∀ child ∈ search.neighbors n, search.getKey child ∈ keys

def unseen (keys : Finset K) (visited : List K) : Nat := (keys.filter (· ∉ visited)).card

theorem unseen_mono {visited' : List K} (more : visited ⊆ visited') : unseen keys visited' ≤ unseen keys visited := by
  apply Countdown.card_le
  exact fun k fresh old => fresh (more old)

theorem unseen_lt {k : K} (inside : k ∈ keys) (fresh : k ∉ visited) : unseen keys (k :: visited) < unseen keys visited := by
  apply Countdown.card_lt (fun k' fresh' old => fresh' (mem_cons_of_mem k old)) inside fresh
  exact fun fresh' => fresh' mem_cons_self

theorem visitLevel_grows (closed : IsClosed search keys) (jobs : List (BreadthFirstSearchJob N)) {s' : Progress K N}
    {nextJobs nextJobs' : BreadthFirstSearchLevel K N} (inside : ∀ j ∈ jobs, search.getKey j.node ∈ keys)
    (next_inside : ∀ entry ∈ nextJobs, search.getKey entry.2.node ∈ keys) (ended : search.visitLevel jobs s nextJobs = .done s' nextJobs') :
    (∀ entry ∈ nextJobs', search.getKey entry.2.node ∈ keys) ∧ s.visited ⊆ s'.visited ∧
      (nextJobs' = nextJobs ∨ unseen keys s'.visited < unseen keys s.visited) := by
  induction jobs generalizing s nextJobs with
  | nil =>
    cases ended
    exact ⟨next_inside, List.Subset.refl _, .inl rfl⟩
  | cons j jobs ih =>
    have inside' : ∀ j' ∈ jobs, search.getKey j'.node ∈ keys := fun j' listed => inside j' (mem_cons_of_mem _ listed)
    unfold BreadthFirstSearch.visitLevel at ended
    by_cases seen : search.getKey j.node ∈ s.visited
    · rw [if_pos seen] at ended
      exact ih inside' next_inside ended
    rw [if_neg seen] at ended
    split at ended
    · cases ended
    have next_inside' : ∀ entry ∈ (search.neighbors j.node).foldl (search.addChild j) nextJobs, search.getKey entry.2.node ∈ keys := by
      intro entry listed
      rcases mem_addChildren search j listed with old | ⟨child, member, rfl⟩
      · exact next_inside entry old
      · exact closed j.node (inside j mem_cons_self) child member
    obtain ⟨after, more, -⟩ := ih inside' next_inside' ended
    have recorded : s.visited ⊆ (search.record s j).visited := subset_cons_self _ _
    have fewer : unseen keys (search.record s j).visited < unseen keys s.visited :=
      unseen_lt (inside j mem_cons_self) seen
    exact ⟨after, List.Subset.trans recorded more, .inr (Nat.lt_of_le_of_lt (unseen_mono more) fewer)⟩

theorem searchLevels_answers (closed : IsClosed search keys) (alike : Alike search.neighbors search.getKey) (fuel : Nat)
    {d : Nat} {level : BreadthFirstSearchLevel K N} (now : Underway search visited₀ start d level.values s [] [])
    (inside : ∀ entry ∈ level, search.getKey entry.2.node ∈ keys)
    (enough : unseen keys s.visited + (if level = [] then 0 else 1) < fuel) :
    ∃ result s', search.searchLevels { visited := visited₀ } fuel level s = some (result, s') ∧ Answer search visited₀ start result s'.calls := by
  induction fuel generalizing d level s with
  | zero => exact absurd enough (Nat.not_lt_zero _)
  | succ fuel ih =>
    unfold BreadthFirstSearch.searchLevels
    by_cases empty : level = []
    · subst empty
      exact ⟨_, _, rfl, now.finish alike⟩
    rw [if_neg empty] at enough ⊢
    dsimp only
    obtain ⟨done, stopped⟩ := now.level_end
    cases ended : search.visitLevel level.values s [] with
    | stopped j s' => exact ⟨_, _, rfl, stopped j s' ended⟩
    | done s' nextJobs =>
      obtain ⟨mine, after⟩ := done s' nextJobs ended
      have inside' : ∀ j ∈ level.values, search.getKey j.node ∈ keys := by
        intro j listed
        obtain ⟨entry, member, rfl⟩ := mem_map.mp listed
        exact inside entry member
      obtain ⟨next_inside, more, progress⟩ := visitLevel_grows closed level.values inside' (by simp) ended
      refine ih (after.next_level alike) next_inside ?_
      have fewer : unseen keys s'.visited ≤ unseen keys s.visited := unseen_mono more
      rcases progress with rfl | less
      · rw [if_pos rfl]
        omega
      · split <;> omega

/-- In a finite graph the search ends: each node that it can get to is visited once, level by level, and the path is a shortest
one back from the first node where the search stops, or else from the first result. -/
theorem breadthFirstSearch_answers (search : BreadthFirstSearch K N) (visited₀ : List K) (start : N) {keys : Finset K}
    (closed : IsClosed search keys) (inside : search.getKey start ∈ keys) (alike : Alike search.neighbors search.getKey) {fuel : Nat}
    (enough : keys.card + 1 < fuel) :
    ∃ result s, search.breadthFirstSearchParallelEx start { visited := visited₀ } fuel = some (result, s) ∧
      Answer search visited₀ start result s.calls := by
  refine searchLevels_answers closed alike fuel (Underway.initial search visited₀ start) ?_ ?_
  · intro entry listed
    rw [mem_singleton.mp listed]
    exact inside
  · have fewer : unseen keys visited₀ ≤ keys.card := Finset.card_filter_le _ _
    exact Nat.lt_of_le_of_lt (Nat.add_le_add_right fewer 1) enough
end

def detour (visit : Nat → Bool × Bool) : BreadthFirstSearch Nat Nat where
  neighbors n := if n = 0 then [1, 2] else if n = 1 then [3, 5] else if n = 2 then [4] else if n = 4 then [3] else []
  visit
  getKey := id

theorem breadthFirstSearch_answers_detour : (∃ result s,
    (detour fun n => (n = 3, n = 3)).breadthFirstSearchParallelEx 0 { visited := [1] } 8 = some (result, s) ∧
      Answer (detour fun n => (n = 3, n = 3)) [1] 0 result s.calls) := by
  have closed : IsClosed (detour fun n => (n = 3, n = 3)) (Finset.range 6) := by
    intro n inside child listed
    have each : ∀ n ∈ Finset.range 6, ∀ child ∈ (detour fun n => (n = 3, n = 3)).neighbors n, child ∈ Finset.range 6 := by decide
    exact each n inside child listed
  have alike : Alike (detour fun n => (n = 3, n = 3)).neighbors (detour fun n => (n = 3, n = 3)).getKey := by
    rintro n n' same child listed
    obtain rfl : n = n' := same
    exact ⟨child, listed, rfl⟩
  exact breadthFirstSearch_answers (detour fun n => (n = 3, n = 3)) [1] 0 closed (by decide) alike (by decide)

/-- Two nodes with the key 1, of which the second leads on to 2. -/
def twins : BreadthFirstSearch Nat (Nat × Bool) where
  neighbors n := if n = (0, false) then [(1, false), (1, true)] else if n = (1, true) then [(2, false)] else []
  visit _ := (false, false)
  getKey := Prod.fst

/-- Keys behind one that had been visited are not visited, and a path does not go through it; nor are the keys below a node
where the search stops, or behind the second node with one key. -/
theorem detour_skips :
    ((∃ result s, (detour fun _ => (false, false)).breadthFirstSearchParallelEx 0 { visited := [1] } 8 = some (result, s) ∧
        5 ∉ s.calls) ∧ Route (detour fun _ => (false, false)).neighbors (fun _ => True) 0 5 [5, 1, 0]) ∧
    ((∃ result s, (detour fun n => (n = 3, n = 3)).breadthFirstSearchParallelEx 0 { visited := [1] } 8 = some (result, s) ∧
        result.path = [3, 4, 2, 0]) ∧ Route (detour fun n => (n = 3, n = 3)).neighbors (fun _ => True) 0 3 [3, 1, 0]) ∧
    (∃ result s, (detour fun n => (n = 0, n = 0)).breadthFirstSearchParallelEx 0 {} 8 = some (result, s) ∧ s.calls = [0]) ∧
    (∃ result s, twins.breadthFirstSearchParallelEx (0, false) {} 8 = some (result, s) ∧ (2, false) ∉ s.calls) ∧
      Route twins.neighbors (fun _ => True) (0, false) (2, false) [(2, false), (1, true), (0, false)] := by
  refine ⟨⟨⟨_, _, rfl, by decide⟩, ?_⟩, ⟨⟨_, _, rfl, rfl⟩, ?_⟩, ⟨_, _, rfl, rfl⟩, ⟨_, _, rfl, by decide⟩, ?_⟩
  · exact .step (.step (.start trivial) (by decide) trivial) (by decide) trivial
  · exact .step (.step (.start trivial) (by decide) trivial) (by decide) trivial
  · exact .step (.step (.start trivial) (by decide) trivial) (by decide) trivial

end TypeScriptRs.Core
