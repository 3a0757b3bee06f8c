import TypeScriptRs.Lib.Countdown

/-! Depth-first search in post-order, where marked references tolerate cycles. -/
namespace DepthFirst
open Relation List Option

variable {N : Type} [DecidableEq N]

/-- The nodes in the order they were discovered, each with the context of its visit, and
the nodes in the order they were completed. -/
structure State (N : Type) where
  discovered : List (N × Bool)
  order : List N
  links : List (N × Nat × N)
  cycles : List N

namespace State

def start : State N := ⟨[], [], [], []⟩

def seen (s : State N) : List N := s.discovered.map Prod.fst

def Open (s : State N) (n : N) : Prop := n ∈ s.seen ∧ n ∉ s.order

/-- The references of a node that were followed to a completed node. -/
def linksOf (s : State N) (n : N) : List (Nat × N) :=
  s.links.filterMap fun l => if l.1 = n then some l.2 else none

def linksTo (s : State N) (n : N) : List N :=
  s.links.filterMap fun l => if l.2.2 = n then some l.1 else none

def discover (s : State N) (n : N) (marked : Bool) : State N :=
  { s with discovered := s.discovered ++ [(n, marked)] }

def link (s : State N) (n : N) (index : Nat) (child : N) : State N :=
  { s with links := s.links ++ [(n, index, child)] }

def complete (s : State N) (n : N) : State N := { s with order := s.order ++ [n] }

def report (s : State N) (n : N) : State N := { s with cycles := s.cycles ++ [n] }

end State

def before (order : List N) (n : N) : List N := order.takeWhile (· ≠ n)

def previous (order : List N) (n : N) : Option N := if n ∈ order then (before order n).getLast? else none

/-- One reference of a node: visit it, and link it when it has been completed. -/
def follow (visit : N → Bool → State N → Option (Bool × State N)) (n : N) (marked : Bool)
    (s : State N) (r : (N × Bool) × Nat) : Option (State N) :=
  (visit r.1.1 (marked || r.1.2) s).map fun v => if v.1 then v.2.link n r.2 r.1.1 else v.2

/-- The search from a node; the fuel bounds the depth of the recursion. -/
def visit (refs : N → List (N × Bool)) : Nat → N → Bool → State N → Option (Bool × State N)
  | 0, _, _, _ => none
  | fuel + 1, n, marked, s =>
    if n ∈ s.order then some (true, s)
    else if n ∈ s.seen then some (false, if marked then s else s.report n)
    else
      ((refs n).zipIdx.foldlM (follow (visit refs fuel) n marked) (s.discover n marked)).map
        fun s => (true, s.complete n)

def visitAll (refs : N → List (N × Bool)) (fuel : Nat) (roots : List N) : Option (State N) :=
  roots.foldlM (fun s n => (visit refs fuel n false s).map Prod.snd) State.start

section
variable {order : List N} {n m : N}

theorem before_append_self (fresh : n ∉ order) : before (order ++ [n]) n = order := by
  rw [before, takeWhile_append_of_pos]
  · simp
  · intro m member
    have : m ≠ n := fun h => fresh (h ▸ member)
    simpa using this

theorem before_append (member : m ∈ order) (more : List N) : before (order ++ more) m = before order m := by
  induction order with
  | nil => cases member
  | cons a order ih =>
    by_cases h : a = m
    · simp [before, h]
    have tail : m ∈ order := by
      rcases mem_cons.mp member with same | tail
      · exact absurd same.symm h
      · exact tail
    have rest := ih tail
    simp only [before] at rest
    simp only [before, cons_append]
    rw [takeWhile_cons_of_pos (by simpa using h), takeWhile_cons_of_pos (by simpa using h), rest]

theorem before_mem (member : m ∈ before order n) : m ∈ order :=
  (List.takeWhile_prefix _).mem member

theorem before_cons (a : N) (order : List N) (n : N) : before (a :: order) n = if a = n then [] else a :: before order n := by
  by_cases h : a = n <;> simp [before, h]

theorem not_mem_before_self (order : List N) (n : N) : n ∉ before order n := by
  induction order with
  | nil => simp [before]
  | cons a order ih =>
    rw [before_cons]
    split
    · simp
    · rename_i other
      simp [ih, Ne.symm other]

theorem before_trans {a b c : N} (hb : b ∈ before order a) (hc : c ∈ before order b) : c ∈ before order a := by
  induction order with
  | nil => simp [before] at hb
  | cons x order ih =>
    rw [before_cons] at hb hc ⊢
    by_cases atA : x = a
    · simp [atA] at hb
    by_cases atB : x = b
    · simp [atB] at hc
    · simp only [atA, atB, if_false, mem_cons] at hb hc ⊢
      rcases hc with rfl | hc
      · exact .inl rfl
      · exact .inr (ih (hb.resolve_left (Ne.symm atB)) hc)

theorem previous_append (fresh : n ∉ order) (m : N) :
    previous (order ++ [n]) m = if m = n then order.getLast? else previous order m := by
  unfold previous
  by_cases same : m = n
  · rw [if_pos same, if_pos (by simp [same]), same, before_append_self fresh]
  · by_cases member : m ∈ order
    · rw [if_neg same, if_pos member, if_pos (by simp [member]), before_append member]
    · rw [if_neg same, if_neg member, if_neg (by simp [member, same])]

theorem previous_getElem (distinct : order.Nodup) (i : Nat) (inside : i < order.length) :
    previous order order[i] = if i = 0 then none else order[i - 1]? := by
  induction order using List.reverseRecOn generalizing i with
  | nil => cases inside
  | append_singleton order n ih =>
    have fresh : n ∉ order := by
      intro member
      exact (nodup_append.mp distinct).2.2 n member n (by simp) rfl
    have front := (nodup_append.mp distinct).1
    rw [previous_append fresh]
    by_cases last : i = order.length
    · subst last
      rw [if_pos (by simp), List.getLast?_eq_getElem?]
      cases order with
      | nil => rfl
      | cons a order =>
        rw [if_neg (by simp), List.getElem?_append_left (by simp)]
    have earlier : i < order.length := by
      simp only [length_append, length_singleton] at inside
      omega
    have other : order[i] ≠ n := fun same => fresh (same ▸ getElem_mem earlier)
    rw [getElem_append_left earlier, if_neg other, ih front i earlier,
      List.getElem?_append_left (by omega)]
end

/-- An unmarked reference of a node that was visited outside a marked context. -/
def Plain (refs : N → List (N × Bool)) (s : State N) (a b : N) : Prop :=
  (a, false) ∈ s.discovered ∧ (b, false) ∈ refs a

def Below (refs : N → List (N × Bool)) (within : N → Prop) (n : N) : Prop :=
  ∃ a b, within a ∧ (b, true) ∈ refs a ∧ ReflTransGen (fun a b => ∃ marked, (b, marked) ∈ refs a) b n

/-- What holds of the completed nodes at every moment of a search. -/
structure Inv (refs : N → List (N × Bool)) (within : N → Prop) (s : State N) : Prop where
  nodup : s.order.Nodup
  seenNodup : s.seen.Nodup
  marked : ∀ n, (n, true) ∈ s.discovered → Below refs within n
  within : ∀ n ∈ s.seen, within n
  completed : ∀ n ∈ s.order, n ∈ s.seen
  closed : ∀ n ∈ s.order, ∀ r ∈ refs n, r.1 ∈ s.seen
  links : ∀ n ∈ s.order, s.linksOf n =
    (refs n).zipIdx.filterMap fun r => if r.1.1 ∈ before s.order n then some (r.2, r.1.1) else none
  fresh : ∀ n, n ∉ s.seen → s.linksOf n = []
  ordered : s.cycles = [] → ∀ n ∈ s.order, (n, false) ∈ s.discovered →
    ∀ r ∈ refs n, r.2 = false → r.1 ∈ before s.order n
  cyclic : s.cycles ≠ [] → ∃ n, TransGen (Plain refs s) n n

structure Grows (s s' : State N) : Prop where
  order : s.order <+: s'.order
  discovered : s.discovered <+: s'.discovered
  cycles : s.cycles <+: s'.cycles
  opened : ∀ m, s'.Open m ↔ s.Open m
  links : ∀ m ∈ s.seen, s'.linksOf m = s.linksOf m

namespace Grows

omit [DecidableEq N] in
theorem seen_subset {s s' : State N} (h : s.discovered <+: s'.discovered) {m : N} (member : m ∈ s.seen) : m ∈ s'.seen :=
  ((h.map Prod.fst).subset) member

theorem refl (s : State N) : Grows s s :=
  ⟨prefix_rfl, prefix_rfl, prefix_rfl, fun _ => Iff.rfl, fun _ _ => rfl⟩

omit [DecidableEq N] in
theorem plain {refs : N → List (N × Bool)} {s s' : State N} (h : s.discovered <+: s'.discovered) {a b : N}
    (p : TransGen (Plain refs s) a b) : TransGen (Plain refs s') a b :=
  TransGen.mono (fun _ _ q => ⟨h.subset q.1, q.2⟩) _ _ p

end Grows

section
variable {refs : N → List (N × Bool)} {within : N → Prop} {s : State N} {n : N} {marked : Bool} {s' : State N}

omit [DecidableEq N] in
@[simp] theorem seen_discover (s : State N) (n : N) (marked : Bool) :
    (s.discover n marked).seen = s.seen ++ [n] := by
  simp [State.seen, State.discover]

theorem linksOf_link (s : State N) (n m : N) (index : Nat) (child : N) :
    (s.link n index child).linksOf m = s.linksOf m ++ if n = m then [(index, child)] else [] := by
  simp only [State.linksOf, State.link, filterMap_append]
  by_cases h : n = m <;> simp [h]

theorem linksTo_link (s : State N) (n m : N) (index : Nat) (child : N) :
    (s.link n index child).linksTo m = s.linksTo m ++ if child = m then [n] else [] := by
  simp only [State.linksTo, State.link, filterMap_append]
  by_cases h : child = m <;> simp [h]

theorem Inv.start : Inv refs within State.start where
  nodup := nodup_nil
  seenNodup := nodup_nil
  within n h := by cases h
  marked n h := by cases h
  completed n h := by cases h
  closed n h := by cases h
  links n h := by cases h
  fresh n _ := rfl
  ordered _ n h := by cases h
  cyclic h := absurd rfl h

theorem Inv.discover (inv : Inv refs within s) (unseen : n ∉ s.seen) (inside : within n)
    (below : marked = true → Below refs within n) : Inv refs within (s.discover n marked) where
  nodup := inv.nodup
  seenNodup := by
    rw [seen_discover]
    exact nodup_append.mpr ⟨inv.seenNodup, nodup_singleton n, by
      rintro a member b single rfl
      exact unseen (mem_singleton.mp single ▸ member)⟩
  within m h := by
    rw [seen_discover, mem_append, mem_singleton] at h
    rcases h with h | rfl
    · exact inv.within m h
    · exact inside
  marked m h := by
    rcases mem_append.mp h with old | new
    · exact inv.marked m old
    · obtain ⟨rfl, same⟩ := Prod.mk.inj (mem_singleton.mp new)
      exact below same.symm
  completed m h := by
    rw [seen_discover]
    exact mem_append_left _ (inv.completed m h)
  closed m h r hr := by
    rw [seen_discover]
    exact mem_append_left _ (inv.closed m h r hr)
  links := inv.links
  fresh m h := by
    rw [seen_discover, mem_append, not_or] at h
    exact inv.fresh m h.1
  ordered none m h visited := by
    refine inv.ordered none m h ?_
    rcases mem_append.mp visited with old | new
    · exact old
    · have same : m = n := by
        simp only [mem_singleton, Prod.mk.injEq] at new
        exact new.1
      exact absurd (inv.completed m h) (same ▸ unseen)
  cyclic some := by
    obtain ⟨m, cycle⟩ := inv.cyclic some
    exact ⟨m, Grows.plain (prefix_append _ _) cycle⟩

theorem Inv.link (inv : Inv refs within s) (opened : s.Open n) (index : Nat) (child : N) :
    Inv refs within (s.link n index child) where
  nodup := inv.nodup
  seenNodup := inv.seenNodup
  within := inv.within
  marked := inv.marked
  completed := inv.completed
  closed := inv.closed
  links m h := by
    have other : n ≠ m := fun same => opened.2 (same ▸ h)
    rw [linksOf_link, if_neg other, append_nil]
    exact inv.links m h
  fresh m h := by
    have other : n ≠ m := fun same => h (same ▸ opened.1)
    rw [linksOf_link, if_neg other, append_nil]
    exact inv.fresh m h
  ordered := inv.ordered
  cyclic := inv.cyclic

theorem Inv.report (inv : Inv refs within s) (cycle : TransGen (Plain refs s) n n) : Inv refs within (s.report n) where
  nodup := inv.nodup
  seenNodup := inv.seenNodup
  within := inv.within
  marked := inv.marked
  completed := inv.completed
  closed := inv.closed
  links := inv.links
  fresh := inv.fresh
  ordered none := by simp [State.report] at none
  cyclic _ := ⟨n, cycle⟩

/-- The state of the loop over the references of an open node. -/
structure Loop (refs : N → List (N × Bool)) (within : N → Prop) (s₀ : State N) (n : N) (marked : Bool)
    (done : List ((N × Bool) × Nat)) (s : State N) : Prop where
  inv : Inv refs within s
  order : s₀.order <+: s.order
  discovered : s₀.discovered <+: s.discovered
  cycles : s₀.cycles <+: s.cycles
  opened : ∀ m, s.Open m ↔ s₀.Open m
  others : ∀ m ∈ s₀.seen, m ≠ n → s.linksOf m = s₀.linksOf m
  own : s.linksOf n = done.filterMap fun r => if r.1.1 ∈ s.order then some (r.2, r.1.1) else none
  children : ∀ r ∈ done, r.1.1 ∈ s.seen
  ahead : s.cycles = [] → marked = false → ∀ r ∈ done, r.1.2 = false → r.1.1 ∈ s.order

theorem Grows.order_iff {s : State N} (g : Grows s s') {m : N} (seen : m ∈ s.seen) : m ∈ s'.order ↔ m ∈ s.order := by
  constructor
  · intro later
    by_contra now
    exact ((g.opened m).mpr ⟨seen, now⟩).2 later
  · exact fun now => g.order.subset now

structure Visited (refs : N → List (N × Bool)) (within : N → Prop) (s : State N) (n : N) (marked found : Bool)
    (s' : State N) : Prop where
  inv : Inv refs within s'
  grows : Grows s s'
  yes : found = true → n ∈ s'.order
  no : found = false → s.Open n
  reported : found = false → marked = false → s'.cycles ≠ []

theorem Loop.step {s₀ : State N} {marked found : Bool} {done : List ((N × Bool) × Nat)} {s₁ : State N}
    {r : (N × Bool) × Nat} (loop : Loop refs within s₀ n marked done s) (opened : s₀.Open n)
    (v : Visited refs within s r.1.1 (marked || r.1.2) found s₁) :
    Loop refs within s₀ n marked (done ++ [r]) (if found then s₁.link n r.2 r.1.1 else s₁) := by
  have openNow : s₁.Open n := (v.grows.opened n).mpr ((loop.opened n).mpr opened)
  have seenNow : n ∈ s.seen := ((loop.opened n).mpr opened).1
  have kept : s₁.linksOf n =
      done.filterMap fun r => if r.1.1 ∈ s₁.order then some (r.2, r.1.1) else none := by
    rw [v.grows.links n seenNow, loop.own]
    refine filterMap_congr fun q hq => ?_
    simp only [v.grows.order_iff (loop.children q hq)]
  have children : ∀ q ∈ done ++ [r], q.1.1 ∈ s₁.seen := by
    intro q hq
    rcases mem_append.mp hq with old | new
    · exact Grows.seen_subset v.grows.discovered (loop.children q old)
    · rw [mem_singleton.mp new]
      cases found with
      | true => exact v.inv.completed _ (v.yes rfl)
      | false => exact Grows.seen_subset v.grows.discovered (v.no rfl).1
  have ahead : s₁.cycles = [] → marked = false → ∀ q ∈ done ++ [r], q.1.2 = false → q.1.1 ∈ s₁.order := by
    intro none outside q hq unmarked
    rcases mem_append.mp hq with old | new
    · have quiet : s.cycles = [] := prefix_nil.mp (none ▸ v.grows.cycles)
      exact v.grows.order.subset (loop.ahead quiet outside q old unmarked)
    · obtain rfl := mem_singleton.mp new
      cases found with
      | true => exact v.yes rfl
      | false => exact absurd none (v.reported rfl (by simp [outside, unmarked]))
  have others : ∀ m ∈ s₀.seen, m ≠ n → s₁.linksOf m = s₀.linksOf m := fun m hm other =>
    (v.grows.links m (Grows.seen_subset loop.discovered hm)).trans (loop.others m hm other)
  have order := loop.order.trans v.grows.order
  have discovered := loop.discovered.trans v.grows.discovered
  have cycles := loop.cycles.trans v.grows.cycles
  have same : ∀ m, s₁.Open m ↔ s₀.Open m := fun m => (v.grows.opened m).trans (loop.opened m)
  cases found with
  | true =>
    refine ⟨v.inv.link openNow r.2 r.1.1, order, discovered, cycles, same, fun m hm other => ?_, ?_,
      children, ahead⟩
    · rw [if_pos rfl, linksOf_link, if_neg other.symm, append_nil, others m hm other]
    · have listed : r.1.1 ∈ (s₁.link n r.2 r.1.1).order := v.yes rfl
      rw [if_pos rfl, linksOf_link, if_pos rfl, filterMap_append, kept]
      simp [listed]
      rfl
  | false =>
    have missing : r.1.1 ∉ s₁.order := ((v.grows.opened _).mpr (v.no rfl)).2
    refine ⟨v.inv, order, discovered, cycles, same, others, ?_, children, ahead⟩
    simpa [missing] using kept

theorem Loop.run {s₀ : State N} (visitChild : N → Bool → State N → Option (Bool × State N)) (opened : s₀.Open n)
    (each : ∀ r ∈ (refs n).zipIdx, ∀ done s₁, Loop refs within s₀ n marked done s₁ →
      ∃ found s₂, visitChild r.1.1 (marked || r.1.2) s₁ = some (found, s₂) ∧
        Visited refs within s₁ r.1.1 (marked || r.1.2) found s₂) :
    ∀ (rest done : List ((N × Bool) × Nat)) (s₁ : State N), done ++ rest = (refs n).zipIdx →
      Loop refs within s₀ n marked done s₁ →
      ∃ s₂, rest.foldlM (follow visitChild n marked) s₁ = some s₂ ∧
        Loop refs within s₀ n marked (refs n).zipIdx s₂ := by
  intro rest
  induction rest with
  | nil =>
    intro done s₁ all inner
    exact ⟨s₁, rfl, by simpa [← all] using inner⟩
  | cons r rest more =>
    intro done s₁ all inner
    obtain ⟨found, s₂, run, visited⟩ := each r (by rw [← all]; simp) done s₁ inner
    obtain ⟨s₃, final, done'⟩ := more (done ++ [r]) _ (by rw [← all]; simp) (inner.step opened visited)
    refine ⟨s₃, ?_, done'⟩
    rw [foldlM_cons, follow, run]
    exact final

omit [DecidableEq N] in
theorem discover_open (unseen : n ∉ s.seen) (marked : Bool) (m : N) : ((s.discover n marked).Open m ∧ m ≠ n) ↔ s.Open m := by
  simp only [State.Open, seen_discover, mem_append, mem_singleton]
  constructor
  · rintro ⟨⟨old | same, notListed⟩, other⟩
    · exact ⟨old, notListed⟩
    · exact absurd same other
  · rintro ⟨old, notListed⟩
    exact ⟨⟨.inl old, notListed⟩, fun same => unseen (same ▸ old)⟩

theorem Loop.complete (unseen : n ∉ s.seen) (unlisted : n ∉ s.order)
    (loop : Loop refs within (s.discover n marked) n marked (refs n).zipIdx s') :
    Visited refs within s n marked true (s'.complete n) := by
  obtain ⟨seen, absent⟩ : s'.Open n := (loop.opened n).mpr ⟨by simp, unlisted⟩
  have context : (n, marked) ∈ s'.discovered := loop.discovered.subset (by simp [State.discover])
  have whole : before (s'.order ++ [n]) n = s'.order := before_append_self absent
  have child : ∀ r ∈ refs n, ∃ i, (r, i) ∈ (refs n).zipIdx := fun r hr => by
    obtain ⟨i, bound, rfl⟩ := mem_iff_getElem.mp hr
    exact ⟨i, by simp [mem_zipIdx_iff_getElem?, bound]⟩
  have listed : ∀ {m}, m ∈ (s'.complete n).order → m ∈ s'.order ∨ m = n := fun h => by
    simpa [State.complete] using h
  refine ⟨⟨?_, loop.inv.seenNodup, loop.inv.marked, loop.inv.within, ?_, ?_, ?_, loop.inv.fresh, ?_, loop.inv.cyclic⟩,
    ⟨loop.order.trans (prefix_append _ _), (prefix_append _ _).trans loop.discovered,
      loop.cycles, ?_, ?_⟩, fun _ => by simp [State.complete], by simp, by simp⟩
  · exact nodup_append.mpr ⟨loop.inv.nodup, nodup_singleton n, by
      rintro a member b single rfl
      exact absent (mem_singleton.mp single ▸ member)⟩
  · intro m h
    rcases listed h with old | rfl
    · exact loop.inv.completed m old
    · exact seen
  · intro m h r hr
    rcases listed h with old | rfl
    · exact loop.inv.closed m old r hr
    · obtain ⟨i, member⟩ := child r hr
      exact loop.children _ member
  · intro m h
    rcases listed h with old | rfl
    · rw [State.complete, before_append old]
      exact loop.inv.links m old
    · rw [State.complete, whole]
      exact loop.own
  · intro none m h visited r hr unmarked
    rcases listed h with old | rfl
    · rw [State.complete, before_append old]
      exact loop.inv.ordered none m old visited r hr unmarked
    have outside : marked = false :=
      (Prod.mk.inj (inj_on_of_nodup_map loop.inv.seenNodup context visited rfl)).2
    obtain ⟨i, member⟩ := child r hr
    rw [State.complete, whole]
    exact loop.ahead none outside _ member unmarked
  · intro m
    rw [← discover_open unseen marked m, ← loop.opened m]
    simp only [State.Open, State.complete, mem_append, mem_singleton, not_or, and_assoc]
    rfl
  · intro m old
    have other : m ≠ n := fun same => unseen (same ▸ old)
    exact loop.others m (by simp [old]) other
end

section
variable {refs : N → List (N × Bool)}
variable {visitChild : N → Bool → State N → Option (Bool × State N)} {n : N} {marked : Bool} {s : State N} {fuel : Nat}

/-- A search completes no node but the ones it discovers, at the end of the order. -/
structure Keeps (s s' : State N) : Prop where
  order : s.order <+: s'.order
  nodes : ∀ m ∈ s.seen, m ∈ s'.seen ∧ (m ∈ s'.order ↔ m ∈ s.order)

omit [DecidableEq N] in
theorem Keeps.trans {a b c : State N} (h : Keeps a b) (k : Keeps b c) : Keeps a c where
  order := h.order.trans k.order
  nodes m seen := ⟨(k.nodes m (h.nodes m seen).1).1, (k.nodes m (h.nodes m seen).1).2.trans (h.nodes m seen).2⟩

omit [DecidableEq N] in
theorem follow_some {s' : State N} {r : (N × Bool) × Nat} (run : follow visitChild n marked s r = some s') :
    ∃ found s₁, visitChild r.1.1 (marked || r.1.2) s = some (found, s₁) ∧
      s' = if found then s₁.link n r.2 r.1.1 else s₁ := by
  simp only [follow, map_eq_some_iff] at run
  obtain ⟨⟨found, s₁⟩, visited, rfl⟩ := run
  exact ⟨found, s₁, visited, rfl⟩

omit [DecidableEq N] in
theorem foldlM_keeps (each : ∀ m c s found s', visitChild m c s = some (found, s') → Keeps s s')
    (rest : List ((N × Bool) × Nat)) : ∀ s s' : State N,
    rest.foldlM (follow visitChild n marked) s = some s' → Keeps s s' := by
  induction rest with
  | nil =>
    intro s s' run
    cases run
    exact ⟨prefix_rfl, fun m seen => ⟨seen, Iff.rfl⟩⟩
  | cons r rest ih =>
    intro s s' run
    rw [foldlM_cons] at run
    obtain ⟨s₁, first, more⟩ := bind_eq_some_iff.mp run
    obtain ⟨found, s₂, visited, rfl⟩ := follow_some first
    have here : Keeps s (if found then s₂.link n r.2 r.1.1 else s₂) := by
      have kept := each _ _ _ _ _ visited
      cases found <;> exact ⟨kept.order, kept.nodes⟩
    exact here.trans (ih _ _ more)

theorem visit_keeps (fuel : Nat) : ∀ (n : N) (marked : Bool) (s : State N) (found : Bool) (s' : State N),
    visit refs fuel n marked s = some (found, s') → Keeps s s' := by
  induction fuel with
  | zero =>
    intro n marked s found s' run
    cases run
  | succ fuel ih =>
    intro n marked s found s' run
    unfold visit at run
    split at run
    · cases run
      exact ⟨prefix_rfl, fun m seen => ⟨seen, Iff.rfl⟩⟩
    split at run
    · cases run
      cases marked <;> exact ⟨prefix_rfl, fun m seen => ⟨seen, Iff.rfl⟩⟩
    rename_i unseen
    obtain ⟨s₁, loop, same⟩ := map_eq_some_iff.mp run
    cases same
    have kept := foldlM_keeps ih _ _ _ loop
    refine ⟨kept.order.trans (prefix_append _ _), fun m seen => ?_⟩
    obtain ⟨seen', iff⟩ := kept.nodes m (by simp [seen])
    have other : m ≠ n := fun same => unseen (same ▸ seen)
    refine ⟨seen', ?_⟩
    simpa [State.complete, State.discover, other] using iff

/-- The first node a search completes: from each node, the first reference that does not
lead back to an open one. -/
def descend (refs : N → List (N × Bool)) : Nat → List N → N → N
  | 0, _, n => n
  | fuel + 1, opened, n =>
    match (refs n).find? fun r => r.1 ∉ opened ++ [n] with
    | none => n
    | some r => descend refs fuel (opened ++ [n]) r.1

theorem foldlM_first (first : ∀ n marked s found s', s.order = [] → n ∉ s.seen →
      visit refs fuel n marked s = some (found, s') → s'.order.head? = some (descend refs fuel s.seen n))
    (n : N) (marked : Bool) (rest : List ((N × Bool) × Nat)) : ∀ s s' : State N, s.order = [] →
    rest.foldlM (follow (visit refs fuel) n marked) s = some s' →
    s'.order.head? = ((rest.map Prod.fst).find? fun r => r.1 ∉ s.seen).map fun r => descend refs fuel s.seen r.1 := by
  induction rest with
  | nil =>
    intro s s' empty run
    cases run
    simp [empty]
  | cons r rest ih =>
    intro s s' empty run
    obtain ⟨s₁, step, more⟩ := bind_eq_some_iff.mp run
    obtain ⟨found, s₂, visited, rfl⟩ := follow_some step
    by_cases back : r.1.1 ∈ s.seen
    · have skipped : found = false ∧ s₂.order = [] ∧ s₂.seen = s.seen := by
        cases fuel with
        | zero => cases visited
        | succ fuel =>
          rw [visit, if_neg (by simp [empty]), if_pos back] at visited
          cases visited
          refine ⟨rfl, ?_, ?_⟩ <;> split <;> first | exact empty | rfl
      obtain ⟨rfl, empty₂, same⟩ := skipped
      rw [map_cons, List.find?_cons_of_neg (by simpa using back), ← same]
      exact ih s₂ s' empty₂ more
    · rw [map_cons, List.find?_cons_of_pos (by simpa using back)]
      have head := first r.1.1 _ s found s₂ empty back visited
      have grown := (foldlM_keeps (visit_keeps fuel) rest _ s' more).order
      have here : (if found then s₂.link n r.2 r.1.1 else s₂).order = s₂.order := by
        cases found <;> rfl
      rw [here] at grown
      obtain ⟨tail, whole⟩ := grown
      rw [← whole, List.head?_append, head]
      rfl

theorem visit_first (fuel : Nat) : ∀ (n : N) (marked : Bool) (s : State N) (found : Bool) (s' : State N),
    s.order = [] → n ∉ s.seen → visit refs fuel n marked s = some (found, s') →
    s'.order.head? = some (descend refs fuel s.seen n) := by
  induction fuel with
  | zero =>
    intro n marked s found s' _ _ run
    cases run
  | succ fuel ih =>
    intro n marked s found s' empty unseen run
    rw [visit, if_neg (by simp [empty]), if_neg unseen] at run
    obtain ⟨s₁, loop, same⟩ := map_eq_some_iff.mp run
    cases same
    have head := foldlM_first ih n marked _ (s.discover n marked) s₁ empty loop
    have order : (s₁.complete n).order.head? = s₁.order.head?.or (some n) := by
      simp [State.complete, List.head?_append]
    rw [order, head, zipIdx_map_fst, seen_discover, descend]
    cases (refs n).find? fun r => r.1 ∉ s.seen ++ [n] <;> rfl

theorem visitAll_keeps (roots : List N) : ∀ s s' : State N,
    roots.foldlM (fun s n => (visit refs fuel n false s).map Prod.snd) s = some s' → s.order <+: s'.order := by
  induction roots with
  | nil =>
    intro s s' run
    cases run
    exact prefix_rfl
  | cons n roots ih =>
    intro s s' run
    obtain ⟨s₁, first, more⟩ := bind_eq_some_iff.mp run
    obtain ⟨⟨found, s₂⟩, visited, rfl⟩ := map_eq_some_iff.mp first
    exact (visit_keeps fuel _ _ _ _ _ visited).order.trans (ih _ _ more)

theorem visitAll_first {roots : List N} (run : visitAll refs fuel roots = some s) :
    s.order.head? = roots.head?.map (descend refs fuel []) := by
  cases roots with
  | nil =>
    cases run
    rfl
  | cons n roots =>
    obtain ⟨s₁, first, more⟩ := bind_eq_some_iff.mp run
    obtain ⟨⟨found, s₂⟩, visited, rfl⟩ := map_eq_some_iff.mp first
    have head := visit_first fuel n false State.start found s₂ rfl (by simp [State.start, State.seen]) visited
    obtain ⟨tail, whole⟩ := visitAll_keeps roots _ _ more
    rw [← whole, List.head?_append, head]
    rfl
end

section
variable {refs : N → List (N × Bool)} {within : N → Prop} (U : Finset N)

/-- The nodes with references that have not been discovered yet. -/
def missing (s : State N) : Finset N := U.filter (· ∉ s.seen)

theorem missing_card_le {s s' : State N} (h : s.discovered <+: s'.discovered) : (missing U s').card ≤ (missing U s).card := by
  apply Countdown.card_le
  exact fun m fresh seen => fresh (Grows.seen_subset h seen)

theorem missing_card_lt {s : State N} {n : N} (inside : n ∈ U) (unseen : n ∉ s.seen) (marked : Bool) :
    (missing U (s.discover n marked)).card < (missing U s).card := by
  refine Countdown.card_lt (fun m fresh seen => fresh ?_) inside unseen ?_
  · rw [seen_discover]
    exact mem_append_left _ seen
  · simp

variable {U} (finite : ∀ n, n ∉ U → refs n = []) (closed : ∀ n, within n → ∀ r ∈ refs n, within r.1)
include finite closed

theorem visit_spec (fuel : Nat) : ∀ (n : N) (marked : Bool) (s : State N), Inv refs within s → within n →
    (marked = true → Below refs within n) →
    (marked = false → ∀ m, s.Open m → TransGen (Plain refs s) m n) → (missing U s).card < fuel →
    ∃ found s', visit refs fuel n marked s = some (found, s') ∧
      Visited refs within s n marked found s' := by
  induction fuel with
  | zero =>
    intro n marked s _ _ _ _ enough
    exact absurd enough (Nat.not_lt_zero _)
  | succ fuel ih =>
    intro n marked s inv inside below path enough
    unfold visit
    by_cases listed : n ∈ s.order
    · exact ⟨true, s, by simp [listed], inv, Grows.refl s, fun _ => listed, by simp, by simp⟩
    by_cases seen : n ∈ s.seen
    · refine ⟨false, if marked then s else s.report n, by simp [listed, seen], ?_⟩
      have opened : s.Open n := ⟨seen, listed⟩
      cases marked with
      | true => exact ⟨inv, Grows.refl s, by simp, fun _ => opened, by simp⟩
      | false =>
        refine ⟨inv.report (path rfl n opened), ?_, by simp, fun _ => opened, fun _ _ => by
          simp [State.report]⟩
        exact ⟨prefix_rfl, prefix_rfl, prefix_append _ _, fun _ => Iff.rfl, fun _ _ => rfl⟩
    have start : Loop refs within (s.discover n marked) n marked [] (s.discover n marked) := by
      refine ⟨inv.discover seen inside below, prefix_rfl, prefix_rfl, prefix_rfl,
        fun _ => Iff.rfl, fun _ _ _ => rfl, ?_, by simp, by simp⟩
      exact inv.fresh n seen
    have opened : (s.discover n marked).Open n := ⟨by simp, listed⟩
    have each : ∀ r ∈ (refs n).zipIdx, ∀ done s₁,
        Loop refs within (s.discover n marked) n marked done s₁ →
        ∃ found s₂, visit refs fuel r.1.1 (marked || r.1.2) s₁ = some (found, s₂) ∧
          Visited refs within s₁ r.1.1 (marked || r.1.2) found s₂ := by
      intro r member done s₁ inner
      have reference : r.1 ∈ refs n := fst_mem_of_mem_zipIdx member
      have hasRefs : n ∈ U := by
        by_contra outside
        simp [finite n outside] at reference
      have fuelLeft : (missing U s₁).card < fuel := by
        have := missing_card_le U inner.discovered
        have := missing_card_lt U hasRefs seen marked
        omega
      have under : (marked || r.1.2) = true → Below refs within r.1.1 := by
        intro some
        rcases Bool.or_eq_true_iff.mp some with above | here
        · obtain ⟨a, b, ha, hb, path⟩ := below above
          exact ⟨a, b, ha, hb, path.tail ⟨r.1.2, reference⟩⟩
        · exact ⟨n, r.1.1, inside, here ▸ reference, .refl⟩
      refine ih r.1.1 (marked || r.1.2) s₁ inner.inv (closed n inside r.1 reference) under ?_ fuelLeft
      -- Outside a marked context every open node leads here by unmarked references.
      intro unmarked m hm
      obtain ⟨outside, plain⟩ := Bool.or_eq_false_iff.mp unmarked
      have edge : Plain refs s₁ n r.1.1 := by
        refine ⟨inner.discovered.subset (by simp [State.discover, outside]), ?_⟩
        rw [← plain]
        exact reference
      by_cases same : m = n
      · rw [same]
        exact .single edge
      · have before : s.Open m := (discover_open seen marked m).mp ⟨(inner.opened m).mp hm, same⟩
        exact .tail (Grows.plain ((prefix_append _ _).trans inner.discovered)
          (path outside m before)) edge
    obtain ⟨s₂, run, done⟩ := Loop.run (visit refs fuel) opened each (refs n).zipIdx [] _ rfl start
    exact ⟨true, s₂.complete n, by simp [listed, seen, run], done.complete seen listed⟩

theorem visitAll_run {fuel : Nat} (roots : List N) : ∀ s : State N, Inv refs within s →
    (∀ m, ¬ s.Open m) → (∀ n ∈ roots, within n) → (missing U s).card < fuel →
    ∃ s', roots.foldlM (fun s n => (visit refs fuel n false s).map Prod.snd) s = some s' ∧
      Inv refs within s' ∧ (∀ m, ¬ s'.Open m) ∧ s.order <+: s'.order ∧ ∀ n ∈ roots, n ∈ s'.order := by
  induction roots with
  | nil =>
    intro s inv quiet _ _
    exact ⟨s, rfl, inv, quiet, prefix_rfl, by simp⟩
  | cons n roots ih =>
    intro s inv quiet inside enough
    obtain ⟨found, s₁, run, v⟩ := visit_spec finite closed fuel n false s inv (inside n (by simp))
      (by simp) (fun _ m opened => absurd opened (quiet m)) enough
    have quiet₁ : ∀ m, ¬ s₁.Open m := fun m opened => quiet m ((v.grows.opened m).mp opened)
    have listed : n ∈ s₁.order := by
      cases found with
      | true => exact v.yes rfl
      | false => exact absurd (v.no rfl) (quiet n)
    obtain ⟨s', rest, inv', quiet', grows, all⟩ := ih s₁ v.inv quiet₁ (fun m hm => inside m (by simp [hm]))
      (lt_of_le_of_lt (missing_card_le U v.grows.discovered) enough)
    refine ⟨s', ?_, inv', quiet', v.grows.order.trans grows, ?_⟩
    · rw [foldlM_cons, run]
      exact rest
    · intro m hm
      rcases mem_cons.mp hm with rfl | hm
      · exact grows.subset listed
      · exact all m hm
end

def Reachable (refs : N → List (N × Bool)) (roots : List N) (n : N) : Prop :=
  ∃ root ∈ roots, ReflTransGen (fun a b => ∃ marked, (b, marked) ∈ refs a) root n

/-- The result of a search: every reachable node once, each linked to the references it
comes after, and a cycle reported exactly when there is one of unmarked references
through nodes visited outside a marked context. -/
structure Searched (refs : N → List (N × Bool)) (roots : List N) (s : State N) : Prop where
  nodup : s.order.Nodup
  seenNodup : s.seen.Nodup
  order_iff : ∀ n, n ∈ s.order ↔ Reachable refs roots n
  seen_iff : ∀ n, n ∈ s.seen ↔ n ∈ s.order
  marked : ∀ n, (n, true) ∈ s.discovered → Below refs (Reachable refs roots) n
  links : ∀ n ∈ s.order, s.linksOf n =
    (refs n).zipIdx.filterMap fun r => if r.1.1 ∈ before s.order n then some (r.2, r.1.1) else none
  fresh : ∀ n, n ∉ s.order → s.linksOf n = []
  ordered : s.cycles = [] → ∀ n, (n, false) ∈ s.discovered →
    ∀ r ∈ refs n, r.2 = false → r.1 ∈ before s.order n
  cyclic : s.cycles ≠ [] ↔ ∃ n, TransGen (Plain refs s) n n

theorem visitAll_spec {refs : N → List (N × Bool)} {U : Finset N} (finite : ∀ n, n ∉ U → refs n = [])
    (roots : List N) {fuel : Nat} (enough : U.card < fuel) :
    ∃ s, visitAll refs fuel roots = some s ∧ Searched refs roots s := by
  have closed : ∀ n, Reachable refs roots n → ∀ r ∈ refs n, Reachable refs roots r.1 := by
    rintro n ⟨root, member, path⟩ r hr
    exact ⟨root, member, path.tail ⟨r.2, hr⟩⟩
  have start : (missing U (State.start : State N)).card < fuel :=
    lt_of_le_of_lt (Finset.card_filter_le _ _) enough
  obtain ⟨s, run, inv, quiet, -, all⟩ := visitAll_run finite closed roots State.start Inv.start
    (fun m opened => by cases opened.1) (fun n hn => ⟨n, hn, .refl⟩) start
  have listed : ∀ n ∈ s.seen, n ∈ s.order := fun n seen => by
    by_contra absent
    exact quiet n ⟨seen, absent⟩
  have reached : ∀ n, n ∈ s.order ↔ Reachable refs roots n := by
    intro n
    refine ⟨fun h => inv.within n (inv.completed n h), ?_⟩
    rintro ⟨root, member, path⟩
    induction path with
    | refl => exact all root member
    | tail _ edge ih =>
      obtain ⟨marked, reference⟩ := edge
      exact listed _ (inv.closed _ ih _ reference)
  have context : ∀ {n c}, (n, c) ∈ s.discovered → n ∈ s.order := fun {n c} h =>
    listed n (mem_map.mpr ⟨(n, c), h, rfl⟩)
  refine ⟨s, run, inv.nodup, inv.seenNodup, reached, fun n => ⟨listed n, inv.completed n⟩,
    inv.marked, inv.links,
    fun n absent => inv.fresh n fun seen => absent (listed n seen),
    fun none n visited => inv.ordered none n (context visited) visited, inv.cyclic, ?_⟩
  rintro ⟨n, cycle⟩ none
  -- Without a report the nodes of the cycle would each come before the one they are
  -- referenced from.
  have earlier : ∀ {a b}, TransGen (Plain refs s) a b → b ∈ before s.order a := by
    intro a b path
    induction path with
    | single edge => exact inv.ordered none _ (context edge.1) edge.1 _ edge.2 rfl
    | tail _ edge ih =>
      exact before_trans ih (inv.ordered none _ (context edge.1) edge.1 _ edge.2 rfl)
  exact not_mem_before_self _ _ (earlier cycle)

variable {s : State N} {n : N} {refs : N → List (N × Bool)} {roots : List N}

theorem count_linksTo (s : State N) (n parent : N) :
    (s.linksTo n).count parent = ((s.linksOf parent).filter fun l => l.2 = n).length := by
  obtain ⟨discovered, order, links, cycles⟩ := s
  simp only [State.linksTo, State.linksOf]
  induction links with
  | nil => rfl
  | cons l links ih =>
    by_cases child : l.2.2 = n
    · by_cases same : l.1 = parent
      · simp [child, same, ih]
      · simp [child, same, ih]
    · by_cases same : l.1 = parent
      · simp [child, same, ih]
      · simp [child, same, ih]

theorem mem_linksTo {parent : N} : parent ∈ s.linksTo n ↔ ∃ index, (index, n) ∈ s.linksOf parent := by
  simp only [State.linksTo, State.linksOf, mem_filterMap]
  constructor
  · rintro ⟨⟨a, index, c⟩, member, linked⟩
    split at linked
    · rename_i child
      cases linked
      exact ⟨index, (a, index, c), member, by simpa using child⟩
    · cases linked
  rintro ⟨index, ⟨a, i, c⟩, member, linked⟩
  split at linked
  · rename_i same
    cases linked
    exact ⟨(a, index, n), member, by simpa using same⟩
  · cases linked

theorem Searched.children (searched : Searched refs roots s) (listed : n ∈ s.order) :
    (s.linksOf n).map Prod.snd = ((refs n).map Prod.fst).filter (· ∈ before s.order n) := by
  rw [searched.links n listed, map_filterMap]
  generalize before s.order n = earlier
  generalize 0 = start
  induction refs n generalizing start with
  | nil => rfl
  | cons r rest ih =>
    rw [zipIdx_cons, filterMap_cons, map_cons, filter_cons]
    by_cases linked : r.1 ∈ earlier
    · simp only [linked, if_true, map_some, decide_true, ih]
    · simp only [linked, if_false, map_none, decide_false, ih, Bool.false_eq_true]

theorem Searched.linksTo_nodup (searched : Searched refs roots s)
    (distinct : ∀ n, Reachable refs roots n → ((refs n).map Prod.fst).Nodup) (n : N) : (s.linksTo n).Nodup := by
  rw [nodup_iff_count_le_one]
  intro parent
  rw [count_linksTo]
  by_cases listed : parent ∈ s.order
  · have children : ((s.linksOf parent).map Prod.snd).Nodup := by
      rw [searched.children listed]
      exact (distinct parent ((searched.order_iff parent).mp listed)).filter _
    have once := nodup_iff_count_le_one.mp children n
    rwa [List.count, countP_map, countP_eq_length_filter] at once
  · rw [searched.fresh parent listed]
    simp

end DepthFirst
