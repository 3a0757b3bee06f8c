import TypeScriptRs.Lib.Countdown
import TypeScriptRs.Lib.HashMap
import TypeScriptRs.Lib.Machine

/-! Searches of a graph at two levels that share the nodes they have seen. -/
namespace Sweep
open Machine Relation List

variable {N : Type} [DecidableEq N]

inductive Event (N : Type) where
  | visit (n : N) (high : Bool)
  | stop (high : Bool)

structure State (N : Type) where
  seen : HashMap N Bool
  log : List (Event N)

namespace State

def start : State N := ⟨∅, []⟩

def Covers (s : State N) (high : Bool) (n : N) : Prop :=
  s.seen.lookup n = some true ∨ (s.seen.lookup n = some false ∧ high = false)

instance (s : State N) (high : Bool) (n : N) : Decidable (s.Covers high n) :=
  inferInstanceAs (Decidable (_ ∨ _))

def mark (s : State N) (high : Bool) (n : N) : State N := { s with seen := s.seen.insert n high }

def record (s : State N) (e : Event N) : State N := { s with log := s.log ++ [e] }

def Visited (s : State N) (high : Bool) (n : N) : Prop := ∃ level, high ≤ level ∧ .visit n level ∈ s.log

def Stopped (s : State N) (high : Bool) : Prop := ∃ level, high ≤ level ∧ .stop level ∈ s.log

end State

def search (next : N → List N) (stop : N → Bool) (high : Bool) : Nat → N → State N → Option (Bool × State N)
  | 0, _, _ => none
  | fuel + 1, n, s =>
    if s.Covers high n then some (false, s)
    else if stop n then some (true, (s.mark high n).record (.stop high))
    else untilTrue (search next stop high fuel) (next n) ((s.mark high n).record (.visit n high))

structure Grows (s s' : State N) : Prop where
  covers : ∀ level n, s.Covers level n → s'.Covers level n
  log : s.log <+: s'.log

namespace Grows

theorem refl (s : State N) : Grows s s := ⟨fun _ _ h => h, prefix_rfl⟩

theorem trans {a b c : State N} (h : Grows a b) (k : Grows b c) : Grows a c :=
  ⟨fun level n covered => k.covers level n (h.covers level n covered), h.log.trans k.log⟩

theorem visited {s s' : State N} (g : Grows s s') {level : Bool} {n : N} (h : s.Visited level n) : s'.Visited level n := by
  obtain ⟨l, above, member⟩ := h
  exact ⟨l, above, g.log.subset member⟩

theorem stopped {s s' : State N} (g : Grows s s') {level : Bool} (h : s.Stopped level) : s'.Stopped level := by
  obtain ⟨l, above, member⟩ := h
  exact ⟨l, above, g.log.subset member⟩

end Grows

section
variable {s : State N} {high : Bool} {n : N}

theorem covers_mark (unseen : ¬ s.Covers high n) (level : Bool) (m : N) :
    (s.mark high n).Covers level m ↔ s.Covers level m ∨ (m = n ∧ level ≤ high) := by
  unfold State.Covers State.mark at *
  by_cases same : m = n
  · subst same
    cases found : s.seen.lookup m with
    | none => cases high <;> cases level <;> simp
    | some old => cases old <;> cases high <;> cases level <;> simp_all
  · simp [same]

theorem covers_mono {level : Bool} (below : level ≤ high) (h : s.Covers high n) : s.Covers level n := by
  unfold State.Covers at *
  cases level <;> cases high <;> simp_all
  tauto

theorem Grows.mark (unseen : ¬ s.Covers high n) : Grows s (s.mark high n) :=
  ⟨fun level m h => (covers_mark unseen level m).mpr (.inl h), prefix_rfl⟩

theorem Grows.record (s : State N) (e : Event N) : Grows s (s.record e) :=
  ⟨fun _ _ h => h, prefix_append _ _⟩
end

variable {next : N → List N} {stop : N → Bool} {high : Bool} {s s' : State N} {n : N} {fuel : Nat}

/-- At this level, either a search has given up or every node seen has been visited and
its neighbours seen, but for the open ones. -/
def Settled (next : N → List N) (s : State N) (level : Bool) (opened : N → Prop) : Prop :=
  s.Stopped level ∨ ∀ n, s.Covers level n → ¬ opened n →
    s.Visited level n ∧ ∀ m ∈ next n, s.Covers level m

def Reaches (next : N → List N) (roots : N → Prop) (n : N) : Prop :=
  ∃ r, roots r ∧ ReflTransGen (fun a b => b ∈ next a) r n

/-- What a search at one level from some roots may do to the state. The entries are nodes
that are only checked for being a stop. -/
structure Searched (next : N → List N) (stop : N → Bool) (high : Bool) (entries roots : N → Prop) (s : State N)
    (stopped : Bool) (s' : State N) : Prop where
  grows : Grows s s'
  given : stopped = true → s'.Stopped high
  covered : stopped = false → (∀ n, entries n → stop n = false) ∧ ∀ r, roots r → s'.Covers high r
  above : ∀ level n, ¬ level ≤ high → s'.Covers level n → s.Covers level n
  settled : ∀ level opened, Settled next s level opened → Settled next s' level opened
  events : ∀ e ∈ s'.log, e ∈ s.log ∨ (∃ n, e = .visit n high ∧ stop n = false ∧ Reaches next roots n) ∨
    (e = .stop high ∧ ∃ n, stop n = true ∧ (entries n ∨ Reaches next roots n))

namespace Searched

variable {high stopped : Bool} {entries entries' roots roots' : N → Prop} {s s₁ s' : State N}

theorem none (s : State N) : Searched next stop high (fun _ => False) (fun _ => False) s false s where
  grows := .refl s
  given h := by cases h
  covered _ := ⟨fun _ h => h.elim, fun _ h => h.elim⟩
  above _ _ _ h := h
  settled _ _ h := h
  events _ h := .inl h

theorem weaken (h : Searched next stop high entries roots s stopped s') (more : ∀ n, entries n → entries' n)
    (all : ∀ r, roots r → roots' r)
    (covered : stopped = false → (∀ n, entries' n → stop n = false) ∧ ∀ r, roots' r → s'.Covers high r) :
    Searched next stop high entries' roots' s stopped s' where
  grows := h.grows
  given := h.given
  covered := covered
  above := h.above
  settled := h.settled
  events e member := by
    rcases h.events e member with old | ⟨n, same, go, r, root, path⟩ | ⟨same, n, halt, reached⟩
    · exact .inl old
    · exact .inr (.inl ⟨n, same, go, r, all r root, path⟩)
    · exact .inr (.inr ⟨same, n, halt, reached.imp (more n) fun ⟨r, root, path⟩ => ⟨r, all r root, path⟩⟩)

theorem trans (h : Searched next stop high entries roots s false s₁) (k : Searched next stop high entries' roots' s₁ stopped s') :
    Searched next stop high (fun n => entries n ∨ entries' n) (fun r => roots r ∨ roots' r) s stopped s' where
  grows := h.grows.trans k.grows
  given := k.given
  covered go := by
    refine ⟨fun n entry => entry.elim ((h.covered rfl).1 n) ((k.covered go).1 n), fun r root => ?_⟩
    rcases root with first | second
    · exact k.grows.covers high r ((h.covered rfl).2 r first)
    · exact (k.covered go).2 r second
  above level n beyond covered := h.above level n beyond (k.above level n beyond covered)
  settled level opened before := k.settled level opened (h.settled level opened before)
  events e member := by
    rcases k.events e member with old | ⟨n, same, go, r, root, path⟩ | ⟨same, n, halt, reached⟩
    · rcases h.events e old with old | ⟨n, same, go, r, root, path⟩ | ⟨same, n, halt, reached⟩
      · exact .inl old
      · exact .inr (.inl ⟨n, same, go, r, .inl root, path⟩)
      · exact .inr (.inr ⟨same, n, halt, reached.imp .inl fun ⟨r, root, path⟩ => ⟨r, .inl root, path⟩⟩)
    · exact .inr (.inl ⟨n, same, go, r, .inr root, path⟩)
    · exact .inr (.inr ⟨same, n, halt, reached.imp .inr fun ⟨r, root, path⟩ => ⟨r, .inr root, path⟩⟩)

end Searched

theorem untilTrue_searched {turn : N → State N → Option (Bool × State N)} {entries roots : N → N → Prop}
    (ready : State N → Prop) (grown : ∀ s s', Grows s s' → ready s → ready s') (list : List N)
    (each : ∀ n ∈ list, ∀ s, ready s → ∃ stopped s', turn n s = some (stopped, s') ∧
      Searched next stop high (entries n) (roots n) s stopped s') :
    ∀ s, ready s → ∃ stopped s', untilTrue turn list s = some (stopped, s') ∧
      Searched next stop high (fun m => ∃ n ∈ list, entries n m) (fun r => ∃ n ∈ list, roots n r) s stopped s' := by
  induction list with
  | nil =>
    intro s _
    exact ⟨false, s, rfl, (Searched.none s).weaken (by simp) (by simp) (by simp)⟩
  | cons n list ih =>
    intro s now
    obtain ⟨stopped, s₁, run, first⟩ := each n (by simp) s now
    cases stopped with
    | true =>
      refine ⟨true, s₁, by simp [untilTrue, run], first.weaken ?_ ?_ (by simp)⟩
      · exact fun m entry => ⟨n, by simp, entry⟩
      · exact fun r root => ⟨n, by simp, root⟩
    | false =>
      obtain ⟨stopped, s₂, rest, more⟩ := ih (fun m hm => each m (by simp [hm])) s₁ (grown s s₁ first.grows now)
      have both := first.trans more
      refine ⟨stopped, s₂, by simp [untilTrue, run, rest], ?_⟩
      simpa only [mem_cons, exists_eq_or_imp] using both

theorem Settled.openNode {level : Bool} {opened : N → Prop}
    (unseen : ¬ s.Covers high n) (e : Event N) (h : Settled next s level opened) :
    Settled next ((s.mark high n).record e) level (fun m => opened m ∨ m = n) := by
  have grows : Grows s ((s.mark high n).record e) := (Grows.mark unseen).trans (Grows.record _ e)
  rcases h with halted | closed
  · exact .inl (grows.stopped halted)
  refine .inr fun m covered other => ?_
  rcases (covers_mark unseen level m).mp covered with old | ⟨rfl, -⟩
  · obtain ⟨visited, neighbours⟩ := closed m old (fun opened => other (.inl opened))
    exact ⟨grows.visited visited, fun k hk => grows.covers level k (neighbours k hk)⟩
  · exact absurd (.inr rfl) other

theorem Searched.ofNeighbours {stopped : Bool} (unseen : ¬ s.Covers high n) (go : stop n = false)
    (inner : Searched next stop high (fun _ => False) (· ∈ next n) ((s.mark high n).record (.visit n high)) stopped
      s') : Searched next stop high (fun _ => False) (· = n) s stopped s' := by
  have first : Grows s ((s.mark high n).record (.visit n high)) :=
    (Grows.mark unseen).trans (Grows.record _ _)
  have here : s'.Covers high n := inner.grows.covers high n ((covers_mark unseen high n).mpr (.inr ⟨rfl, le_rfl⟩))
  have visited : s'.Visited high n := ⟨high, le_rfl, inner.grows.log.subset (by simp [State.record])⟩
  refine ⟨first.trans inner.grows, inner.given, ?_, ?_, ?_, ?_⟩
  · refine fun _ => ⟨fun m entry => entry.elim, ?_⟩
    rintro r rfl
    exact here
  · intro level m beyond covered
    rcases (covers_mark unseen level m).mp (inner.above level m beyond covered) with old | ⟨-, below⟩
    · exact old
    · exact absurd below beyond
  · intro level opened before
    have during := inner.settled level _ (before.openNode unseen (.visit n high))
    by_cases below : level ≤ high
    · cases stopped with
      | true =>
        obtain ⟨l, above, member⟩ := inner.given rfl
        exact .inl ⟨l, below.trans above, member⟩
      | false =>
        rcases during with halted | closed
        · exact .inl halted
        refine .inr fun m covered other => ?_
        by_cases same : m = n
        · subst same
          obtain ⟨l, above, member⟩ := visited
          exact ⟨⟨l, below.trans above, member⟩, fun k hk => covers_mono below ((inner.covered rfl).2 k hk)⟩
        · exact closed m covered (by simp [other, same])
    · rcases during with halted | closed
      · exact .inl halted
      refine .inr fun m covered other => closed m covered ?_
      rintro (opened | rfl)
      · exact other opened
      · rcases (covers_mark unseen level m).mp (inner.above level m below covered) with old | ⟨-, under⟩
        · have low : high = false := by cases high <;> simp_all
          exact unseen (covers_mono (low ▸ Bool.false_le level) old)
        · exact below under
  · intro e member
    rcases inner.events e member with old | ⟨m, same, free, r, root, path⟩ | ⟨same, m, halt, entry | ⟨r, root, path⟩⟩
    · rcases mem_append.mp old with old | new
      · exact .inl old
      · exact .inr (.inl ⟨n, mem_singleton.mp new, go, n, rfl, .refl⟩)
    · exact .inr (.inl ⟨m, same, free, n, rfl, .head root path⟩)
    · exact entry.elim
    · exact .inr (.inr ⟨same, m, halt, .inr ⟨n, rfl, .head root path⟩⟩)

theorem Searched.halt (unseen : ¬ s.Covers high n) (halt : stop n = true) :
    Searched next stop high (fun _ => False) (· = n) s true ((s.mark high n).record (.stop high)) := by
  have grows : Grows s ((s.mark high n).record (.stop high)) := (Grows.mark unseen).trans (Grows.record _ _)
  have halted : ((s.mark high n).record (.stop high)).Stopped high := ⟨high, le_rfl, by simp [State.record]⟩
  refine ⟨grows, fun _ => halted, by simp, ?_, ?_, ?_⟩
  · intro level m beyond covered
    rcases (covers_mark unseen level m).mp covered with old | ⟨-, below⟩
    · exact old
    · exact absurd below beyond
  · intro level opened before
    by_cases below : level ≤ high
    · exact .inl ⟨high, below, by simp [State.record]⟩
    rcases before.openNode unseen (.stop high) with halted | closed
    · exact .inl halted
    refine .inr fun m covered other => closed m covered ?_
    rintro (opened | rfl)
    · exact other opened
    · rcases (covers_mark unseen level m).mp covered with old | ⟨-, under⟩
      · have low : high = false := by cases high <;> simp_all
        exact unseen (covers_mono (low ▸ Bool.false_le level) old)
      · exact below under
  · intro e member
    rcases mem_append.mp member with old | new
    · exact .inl old
    · exact .inr (.inr ⟨mem_singleton.mp new, n, halt, .inr ⟨n, rfl, .refl⟩⟩)

variable (U : Finset N)

def unseen (s : State N) (high : Bool) : Finset N := U.filter fun n => ¬ s.Covers high n

theorem unseen_card_le (g : Grows s s') (high : Bool) : (unseen U s' high).card ≤ (unseen U s high).card := by
  apply Countdown.card_le
  exact fun n fresh covered => fresh (g.covers high n covered)

variable {U}

theorem search_spec (closed : ∀ n, ∀ m ∈ next n, m ∈ U) (high : Bool) (fuel : Nat) :
    ∀ n ∈ U, ∀ s : State N, (unseen U s high).card < fuel →
      ∃ stopped s', search next stop high fuel n s = some (stopped, s') ∧
        Searched next stop high (fun _ => False) (· = n) s stopped s' := by
  induction fuel with
  | zero =>
    intro n _ s enough
    exact absurd enough (Nat.not_lt_zero _)
  | succ fuel ih =>
    intro n inside s enough
    unfold search
    by_cases seen : s.Covers high n
    · refine ⟨false, s, by rw [if_pos seen], (Searched.none s).weaken (by simp) (by simp) ?_⟩
      refine fun _ => ⟨fun m entry => entry.elim, ?_⟩
      rintro r rfl
      exact seen
    rw [if_neg seen]
    cases halt : stop n with
    | true => exact ⟨true, _, rfl, .halt seen halt⟩
    | false =>
      have fewer : (unseen U ((s.mark high n).record (.visit n high)) high).card < fuel := by
        have less : (unseen U ((s.mark high n).record (.visit n high)) high).card < (unseen U s high).card := by
          refine Countdown.card_lt (fun m fresh covered => fresh ?_) inside seen fun fresh => fresh ?_
          · exact (covers_mark seen high m).mpr (.inl covered)
          · exact (covers_mark seen high n).mpr (.inr ⟨rfl, le_rfl⟩)
        omega
      obtain ⟨stopped, s', run, inner⟩ := untilTrue_searched (fun s => (unseen U s high).card < fuel)
        (fun s s' g now => lt_of_le_of_lt (unseen_card_le U g high) now) (next n)
        (fun m hm s now => ih m (closed n m hm) s now) _ fewer
      refine ⟨stopped, s', run, .ofNeighbours seen halt ?_⟩
      simpa using inner

def sweepFrom (next : N → List N) (stop : N → Bool) (high : Bool) (fuel : Nat) (n : N) (s : State N) :
    Option (Bool × State N) :=
  if stop n then some (true, s.record (.stop high)) else untilTrue (search next stop high fuel) (next n) s

def sweep (next : N → List N) (stop : N → Bool) (high : Bool) (fuel : Nat) (entries : List N) (s : State N) :
    Option (Bool × State N) :=
  untilTrue (sweepFrom next stop high fuel) entries s

theorem Searched.check (halt : stop n = true) : Searched next stop high (· = n) (· ∈ next n) s true (s.record (.stop high)) where
  grows := Grows.record s _
  given _ := ⟨high, le_rfl, by simp [State.record]⟩
  covered h := by cases h
  above _ _ _ h := h
  settled level opened before := by
    rcases before with halted | closed
    · exact .inl ((Grows.record s _).stopped halted)
    · exact .inr fun m covered other =>
        ⟨(Grows.record s _).visited (closed m covered other).1, (closed m covered other).2⟩
  events e member := by
    rcases mem_append.mp member with old | new
    · exact .inl old
    · exact .inr (.inr ⟨mem_singleton.mp new, n, halt, .inl rfl⟩)

theorem sweepFrom_spec (closed : ∀ n, ∀ m ∈ next n, m ∈ U) (high : Bool) (enough : U.card < fuel)
    (n : N) (s : State N) : ∃ stopped s', sweepFrom next stop high fuel n s = some (stopped, s') ∧
      Searched next stop high (· = n) (· ∈ next n) s stopped s' := by
  unfold sweepFrom
  cases halt : stop n with
  | true => exact ⟨true, _, by simp, .check halt⟩
  | false =>
    have ready : (unseen U s high).card < fuel := lt_of_le_of_lt (Finset.card_filter_le _ _) enough
    obtain ⟨stopped, s', run, inner⟩ := untilTrue_searched (fun s => (unseen U s high).card < fuel)
      (fun s s' g now => lt_of_le_of_lt (unseen_card_le U g high) now) (next n)
      (fun m hm s now => search_spec closed high fuel m (closed n m hm) s now) s ready
    refine ⟨stopped, s', by simpa using run, inner.weaken (by simp) (by simp) fun go => ?_⟩
    exact ⟨fun m same => same ▸ halt, fun r root => (inner.covered go).2 r ⟨r, root, rfl⟩⟩

variable (stop) in
theorem sweep_spec (closed : ∀ n, ∀ m ∈ next n, m ∈ U) (high : Bool) (enough : U.card < fuel)
    (entries : List N) (s : State N) : ∃ stopped s', sweep next stop high fuel entries s = some (stopped, s') ∧
      Searched next stop high (· ∈ entries) (fun r => ∃ n ∈ entries, r ∈ next n) s stopped s' := by
  obtain ⟨stopped, s', run, searched⟩ := untilTrue_searched (fun _ => True) (fun _ _ _ h => h) entries
    (fun n _ s _ => sweepFrom_spec closed high enough n s) s trivial
  exact ⟨stopped, s', run, by simpa using searched⟩

def touch (stop : N → Bool) (n : N) (s : State N) : Option (Bool × State N) :=
  if stop n then some (true, s.record (.stop false)) else some (false, s.record (.visit n false))

/-- What visiting some nodes does, up to the first stop among them. -/
structure Touched (stop : N → Bool) (nodes : N → Prop) (s : State N) (stopped : Bool) (s' : State N) : Prop where
  grows : Grows s s'
  seen : s'.seen = s.seen
  given : stopped = true → s'.Stopped false ∧ ∃ n, nodes n ∧ stop n = true
  visited : stopped = false → ∀ n, nodes n → stop n = false ∧ s'.Visited false n
  events : ∀ e ∈ s'.log, e ∈ s.log ∨ (∃ n, e = .visit n false ∧ stop n = false ∧ nodes n) ∨
    (e = .stop false ∧ ∃ n, stop n = true ∧ nodes n)

theorem Touched.settled {nodes : N → Prop} {stopped : Bool}
    (touched : Touched stop nodes s stopped s') (level : Bool) (opened : N → Prop) (before : Settled next s level opened) :
    Settled next s' level opened := by
  rcases before with old | closed
  · exact .inl (touched.grows.stopped old)
  · refine .inr fun n covered other => ?_
    simp only [State.Covers, touched.seen] at covered ⊢
    obtain ⟨visited, neighbours⟩ := closed n covered other
    exact ⟨touched.grows.visited visited, neighbours⟩

variable (stop) in
theorem touchEach_spec (nodes : List N) : ∀ s : State N,
    ∃ stopped s', untilTrue (touch stop) nodes s = some (stopped, s') ∧ Touched stop (· ∈ nodes) s stopped s' := by
  induction nodes with
  | nil =>
    intro s
    exact ⟨false, s, rfl, .refl s, rfl, by simp, by simp, fun e old => .inl old⟩
  | cons n nodes ih =>
    intro s
    cases halt : stop n with
    | true =>
      refine ⟨true, s.record (.stop false), by simp [untilTrue, touch, halt], Grows.record s _, rfl, fun _ => ?_,
        by simp, fun e member => ?_⟩
      · exact ⟨⟨false, le_rfl, by simp [State.record]⟩, n, by simp, halt⟩
      · rcases mem_append.mp member with old | new
        · exact .inl old
        · exact .inr (.inr ⟨mem_singleton.mp new, n, halt, by simp⟩)
    | false =>
      obtain ⟨stopped, s', run, rest⟩ := ih (s.record (.visit n false))
      refine ⟨stopped, s', by simp [untilTrue, touch, halt, run], (Grows.record s _).trans rest.grows, rest.seen,
        fun now => ?_, fun go m member => ?_, fun e member => ?_⟩
      · obtain ⟨given, m, listed, halted⟩ := rest.given now
        exact ⟨given, m, by simp [listed], halted⟩
      · rcases mem_cons.mp member with rfl | later
        · exact ⟨halt, false, le_rfl, rest.grows.log.subset (by simp [State.record])⟩
        · exact rest.visited go m later
      rcases rest.events e member with old | ⟨m, same, free, listed⟩ | ⟨same, m, halted, listed⟩
      · rcases mem_append.mp old with old | new
        · exact .inl old
        · exact .inr (.inl ⟨n, mem_singleton.mp new, halt, by simp⟩)
      · exact .inr (.inl ⟨m, same, free, by simp [listed]⟩)
      · exact .inr (.inr ⟨same, m, halted, by simp [listed]⟩)

end Sweep
