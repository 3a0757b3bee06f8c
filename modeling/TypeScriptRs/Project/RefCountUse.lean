import TypeScriptRs.Project.RefCountCache

/-! What is in use stays in the cache, over runs of any number of clients. -/
namespace TypeScriptRs.Project.RefCountCache
open Machine Interleaving List

variable {C K Args V : Type} {options : RefCountCacheOptions} {parse : K → Args → V} {s s' : State C K Args V}

namespace State

variable {c c' : C} {k k' identity : K} {call at_ : Call K Args V} {h h' : Nat} {e : RefCountCacheEntry V} {count : Int}
  {references : List (Reference C K V)}

section
variable [DecidableEq K]

def Unused (s : State C K Args V) (identity : K) : Prop :=
  ∀ h e, s.entries.lookup identity = some h → s.entry h = some e → e.refCount ≤ 0

/-- Every identity with outstanding references has an entry that counts them and holds their value. -/
def InUse (s : State C K Args V) : Prop :=
  ∀ r ∈ s.references, ∃ h e, s.entries.lookup r.identity = some h ∧ s.entry h = some e ∧
    e.refCount = s.outstanding r.identity ∧ e.value = r.value

theorem outstanding_pos {r : Reference C K V} (listed : r ∈ s.references) : 0 < s.outstanding r.identity :=
  countP_pos_iff.mpr ⟨r, listed, decide_eq_true rfl⟩

theorem outstanding_grant (c : C) (k k' : K) (v : V) :
    (s.grant c k v).outstanding k' = s.outstanding k' + if k = k' then 1 else 0 := by
  simp only [outstanding, grant, countP_cons, decide_eq_true_eq]
end

variable [DecidableEq C]

variable [DecidableEq K]

theorem holds_iff : s.holds c k = true ↔ ∃ r ∈ s.references, r.client = c ∧ r.identity = k := by
  simp only [holds, any_eq_true, decide_eq_true_eq]

theorem outstanding_pos_of_holds (held : s.holds c k = true) : 0 < s.outstanding k := by
  obtain ⟨r, listed, -, named⟩ := holds_iff.mp held
  exact named ▸ outstanding_pos listed

theorem outstanding_drop (held : s.holds c k = true) (k' : K) :
    (s.drop c k).outstanding k' + (if k = k' then 1 else 0) = s.outstanding k' := by
  obtain ⟨r, listed, fits⟩ := holds_iff.mp held
  obtain ⟨r, before, after, -, chosen, shape, erased⟩ :=
    exists_of_eraseP (p := fun r => r.client = c ∧ r.identity = k) listed (decide_eq_true fits)
  have named : r.identity = k := (of_decide_eq_true chosen).2
  have left : (s.drop c k).references = before ++ after := erased
  simp only [outstanding, left, shape, countP_append, countP_cons, named, decide_eq_true_eq]
  omega

theorem mem_of_mem_drop {r : Reference C K V} (listed : r ∈ (s.drop c k).references) : r ∈ s.references :=
  mem_of_mem_eraseP listed

theorem holds_drop (other : c' ≠ c) (held : s.holds c' k' = true) : (s.drop c k).holds c' k' = true := by
  obtain ⟨r, listed, owner, named⟩ := holds_iff.mp held
  refine holds_iff.mpr ⟨r, (mem_eraseP_of_neg ?_).mpr listed, owner, named⟩
  intro chosen
  exact other (owner.symm.trans (of_decide_eq_true chosen).1)

theorem holds_grant {v : V} (held : s.holds c' k' = true) : (s.grant c k v).holds c' k' = true := by
  obtain ⟨r, listed, fits⟩ := holds_iff.mp held
  exact holds_iff.mpr ⟨r, mem_cons_of_mem _ listed, fits⟩

/-- An undisturbed call to `acquire` a held identity gives the value that is held. -/
def ReturnsHeld (options : RefCountCacheOptions) (parse : K → Args → V) (s : State C K Args V) : Prop :=
  ∀ r ∈ s.references, ∀ c args s₁, step options parse s (.acquire c r.identity args) = some s₁ →
    ∃ s₂, step options parse s₁ (.proceed c) = some s₂ ∧ s₂.references = ⟨c, r.identity, r.value⟩ :: s.references

theorem InUse.returnsHeld (known : s.InUse) : s.ReturnsHeld options parse := by
  intro r listed c args s₁ first
  obtain ⟨h, e, found, here, counted, valued⟩ := known r listed
  have positive := outstanding_pos listed
  have ready : usable options e = true := by
    simp only [usable, Bool.or_eq_true, decide_eq_true_eq]
    omega
  simp only [step] at first
  split at first
  · split at first
    · cases first
      refine ⟨(s.acquire c r.identity args).reuse c r.identity h e, ?_, ?_⟩
      · simp [step, proceed, acquire, found, setCall, Function.update_self, State.entry] at here ⊢
        simp [here, ready]
      · simp [reuse, grant, setCount, setCall, acquire, found, valued]
    · cases first
  · cases first

/-- A handle that a call has read from the table: as long as its entry is usable, it is the table's. -/
def Seen (options : RefCountCacheOptions) (s : State C K Args V) (identity : K) (h : Nat) : Prop :=
  ∃ e, s.entry h = some e ∧ (usable options e = true → s.entries.lookup identity = some h)

def Standing (options : RefCountCacheOptions) (s : State C K Args V) (c : C) : Call K Args V → Prop
  | .idle => True
  | .acquireFound identity _ h => Seen options s identity h
  | .acquireParse _ _ => True
  | .acquireRelook identity _ h => s.locked = some c ∧ s.entries.lookup identity = some h
  | .refFound identity h => Seen options s identity h
  | .refRevive _ _ => options.disableDeletion = false
  | .derefFound identity h => s.holds c identity = true ∧ s.entries.lookup identity = some h
  | .derefRemove _ => options.disableDeletion = false

structure Consistent (options : RefCountCacheOptions) (s : State C K Args V) : Prop where
  placed : ∀ k h, s.entries.lookup k = some h → ∃ e, s.entry h = some e ∧ e.refCount = s.outstanding k ∧
    ∀ r ∈ s.references, r.identity = k → e.value = r.value
  injective : ∀ k k' h, s.entries.lookup k = some h → s.entries.lookup k' = some h → k = k'
  present : ∀ k, s.entries.lookup k = none → s.outstanding k = 0
  narrow : ∀ h e, s.entry h = some e → e.refCount < 2 ^ 31
  standing : ∀ c, Standing options s c (s.calls c)

theorem Consistent.inUse (known : Consistent options s) : s.InUse := by
  intro r listed
  cases found : s.entries.lookup r.identity with
  | none =>
    have some_ := outstanding_pos listed
    have none_ := known.present r.identity found
    omega
  | some h =>
    obtain ⟨e, here, counted, valued⟩ := known.placed r.identity h found
    exact ⟨h, e, rfl, here, counted, valued r listed rfl⟩

theorem consistent_newRefCountCache : Consistent options (newRefCountCache : State C K Args V) where
  placed _ _ found := by simp [newRefCountCache] at found
  injective _ _ _ found := by simp [newRefCountCache] at found
  present _ _ := rfl
  narrow h _ here := by simp [newRefCountCache, entry] at here
  standing _ := trivial

theorem standing_setCall : Standing options (s.setCall c call) c' at_ ↔ Standing options s c' at_ := by
  cases at_ <;> exact Iff.rfl

theorem standing_of_others (stands : Standing options s c call)
    (others : ∀ c', c' ≠ c → Standing options s c' (s.calls c')) (c' : C) :
    Standing options (s.setCall c call) c' ((s.setCall c call).calls c') := by
  rw [standing_setCall]
  by_cases same : c' = c
  · subst same
    simpa only [setCall, Function.update_self] using stands
  · simpa only [setCall, Function.update_of_ne same] using others c' same

theorem Consistent.others (known : Consistent options (s.setCall c call))
    (other : c' ≠ c) : Standing options s c' (s.calls c') := by
  have stood := known.standing c'
  rw [standing_setCall] at stood
  simpa only [State.setCall, Function.update_of_ne other] using stood

theorem Consistent.setCall (known : Consistent options s)
    (stands : Standing options s c call) : Consistent options (s.setCall c call) where
  placed := known.placed
  injective := known.injective
  present := known.present
  narrow := known.narrow
  standing := standing_of_others stands fun c' _ => known.standing c'

theorem Consistent.idle (c : C) (known : Consistent options s) : Consistent options (s.setCall c .idle) :=
  known.setCall trivial

theorem Consistent.relock {holder : Option C} (known : Consistent options s) (sole : ∀ c', c' ≠ c → s.locked ≠ some c')
    (stands : Standing options { s with locked := holder } c call) :
    Consistent options (State.setCall { s with locked := holder } c call) where
  placed := known.placed
  injective := known.injective
  present := known.present
  narrow := known.narrow
  standing := standing_of_others stands fun c' other => by
    have stood := known.standing c'
    show Standing options { s with locked := holder } c' (s.calls c')
    cases standing : s.calls c' with
    | acquireRelook identity parsed h =>
      rw [standing] at stood
      exact absurd stood.1 (sole c' other)
    | _ => rw [standing] at stood; exact stood

omit [DecidableEq C] [DecidableEq K] in
theorem entry_setCount {e' : RefCountCacheEntry V} (here : s.entry h = some e') :
    (s.setCount h e count).entry h' = if h' = h then some { e with refCount := i32 count } else s.entry h' := by
  have bound : h < s.heap.length := (List.getElem?_eq_some_iff.mp here).1
  by_cases same : h' = h
  · subst same
    simp only [setCount, entry, List.getElem?_set_self bound, if_pos]
  · simp only [setCount, entry, List.getElem?_set_ne (Ne.symm same), if_neg same]

omit [DecidableEq C] in
theorem Seen.setCount (seen : Seen options s identity h') (here : s.entry h = some e) (ready : usable options e = true) :
    Seen options (s.setCount h e count) identity h' := by
  obtain ⟨e', there, known⟩ := seen
  by_cases same : h' = h
  · subst same
    refine ⟨_, (entry_setCount here).trans (if_pos rfl), fun _ => ?_⟩
    cases here.symm.trans there
    exact known ready
  · exact ⟨e', ((entry_setCount here).trans (if_neg same)).trans there, known⟩

theorem Standing.recount (stood : Standing options s c at_) (here : s.entry h = some e) (ready : usable options e = true)
    (kept : ∀ k, s.holds c k = true → State.holds { s.setCount h e count with references } c k = true) :
    Standing options { s.setCount h e count with references } c at_ := by
  cases at_ with
  | acquireFound identity args h' => exact Seen.setCount stood here ready
  | refFound identity h' => exact Seen.setCount stood here ready
  | derefFound identity h' => exact ⟨kept identity stood.1, stood.2⟩
  | _ => exact stood

section
variable (known : Consistent options (s.setCall c .idle)) (found : s.entries.lookup identity = some h) (here : s.entry h = some e)
include known found here

theorem Consistent.recount (ready : usable options e = true)
    (counted : i32 count = (references.countP fun r => r.identity = identity))
    (others : ∀ k, k ≠ identity → (references.countP fun r => r.identity = k) = s.outstanding k)
    (valued : ∀ r ∈ references, r ∈ s.references ∨ r.identity = identity ∧ r.value = e.value)
    (kept : ∀ c' k, c' ≠ c → s.holds c' k = true →
      State.holds { s.setCount h e count with references } c' k = true)
    (stands : Standing options { s.setCount h e count with references } c call) :
    Consistent options ({ s.setCount h e count with references }.setCall c call) where
  placed k h' found' := by
    obtain ⟨e₀, here₀, counted₀, valued₀⟩ := known.placed k h' found'
    by_cases same : k = identity
    · subst same
      cases found.symm.trans found'
      cases here.symm.trans here₀
      refine ⟨_, (entry_setCount here).trans (if_pos rfl), counted, fun r listed named => ?_⟩
      rcases valued r listed with old | ⟨-, given⟩
      · exact valued₀ r old named
      · exact given.symm
    · have apart : h' ≠ h := fun equal => same (known.injective k identity h' found' (equal ▸ found))
      refine ⟨e₀, ((entry_setCount here).trans (if_neg apart)).trans here₀, ?_, fun r listed named => ?_⟩
      · exact counted₀.trans (congrArg Nat.cast (others k same).symm)
      · rcases valued r listed with old | ⟨named', -⟩
        · exact valued₀ r old named
        · exact absurd (named.symm.trans named') same
  injective := known.injective
  present k absent := by
    have other : k ≠ identity := by
      rintro rfl
      cases found.symm.trans absent
    exact (others k other).trans (known.present k absent)
  narrow h' e' here' := by
    have old := (entry_setCount here).symm.trans here'
    split at old
    · cases old
      exact i32_lt _
    · exact known.narrow h' e' old
  standing := standing_of_others stands fun c' other =>
    (known.others other).recount here ready fun k held => kept c' k other held

theorem Consistent.reuse (ready : usable options e = true) (room : e.refCount < 2 ^ 31 - 1) :
    Consistent options (s.reuse c identity h e) := by
  obtain ⟨e₀, here₀, counted, valued⟩ := known.placed identity h found
  cases here.symm.trans here₀
  have counted' : e.refCount = s.outstanding identity := counted
  have fits : i32 (e.refCount + 1) = e.refCount + 1 := i32_of_range (by omega) (by omega)
  have grown (k : K) := outstanding_grant (s := s) c identity k e.value
  refine known.recount found here ready ?_ ?_ ?_ (fun _ _ _ held => holds_grant held) trivial
  · have more := grown identity
    rw [if_pos rfl] at more
    rw [fits, counted']
    exact congrArg Nat.cast more.symm
  · intro k other
    have more := grown k
    rw [if_neg (Ne.symm other)] at more
    exact more
  · intro r listed
    rcases mem_cons.mp listed with rfl | old
    · exact .inr ⟨rfl, rfl⟩
    · exact .inl old

theorem Consistent.release (held : s.holds c identity = true)
    (stands : Standing options ((s.setCount h e (e.refCount - 1)).drop c identity) c call) :
    Consistent options (((s.setCount h e (e.refCount - 1)).drop c identity).setCall c call) := by
  obtain ⟨e₀, here₀, counted, valued⟩ := known.placed identity h found
  cases here.symm.trans here₀
  have counted' : e.refCount = s.outstanding identity := counted
  have positive := outstanding_pos_of_holds held
  have room := known.narrow h e here
  have ready : usable options e = true := by
    simp only [usable, Bool.or_eq_true, decide_eq_true_eq]
    omega
  have fits : i32 (e.refCount - 1) = e.refCount - 1 := i32_of_range (by omega) (by omega)
  have fewer (k : K) := outstanding_drop held k
  refine known.recount found here ready ?_ ?_ ?_ (fun _ _ other held' => holds_drop other held') stands
  · have less := fewer identity
    rw [if_pos rfl] at less
    rw [fits]
    have remaining : (s.drop c identity).outstanding identity = s.outstanding identity - 1 := by omega
    have cast : e.refCount - 1 = ((s.drop c identity).outstanding identity : Int) := by omega
    exact cast
  · intro k other
    have less := fewer k
    rw [if_neg (Ne.symm other)] at less
    exact less
  · intro r listed
    exact .inl (mem_of_mem_drop listed)
end

omit [DecidableEq C] [DecidableEq K] in
theorem lt_of_entry (here : s.entry h = some e) : h < s.heap.length :=
  (List.getElem?_eq_some_iff.mp here).1

omit [DecidableEq C] in
theorem entry_insertEntry (identity : K) (value : V)
    (here : s.entry h = some e) : (s.insertEntry identity value).entry h = some e :=
  (List.getElem?_append_left (lt_of_entry here)).trans here

omit [DecidableEq C] in
theorem entry_insertEntry_self (identity : K) (value : V) :
    (s.insertEntry identity value).entry s.heap.length = some ⟨value, 1⟩ :=
  List.getElem?_concat_length

omit [DecidableEq C] in
theorem entry_of_insertEntry (identity : K) (value : V)
    (here : (s.insertEntry identity value).entry h = some e) : s.entry h = some e ∨ e = ⟨value, 1⟩ := by
  change (s.heap ++ [⟨value, 1⟩])[h]? = some e at here
  rcases Nat.lt_or_ge h s.heap.length with old | new
  · exact .inl ((List.getElem?_append_left old).symm.trans here)
  · have only := (List.getElem?_append_right new).symm.trans here
    exact .inr (mem_singleton.mp (mem_of_getElem? only))

def Spent (options : RefCountCacheOptions) (s : State C K Args V) (identity : K) : Prop :=
  ∀ h e, s.entries.lookup identity = some h → s.entry h = some e → usable options e = false

omit [DecidableEq C] in
theorem Unused.spent (unused : s.Unused identity) (deletes : options.disableDeletion = false) : Spent options s identity := by
  intro h e found here
  have count := unused h e found here
  simp only [usable, deletes, Bool.or_false, decide_eq_false_iff_not]
  omega

theorem Spent.outstanding (spent : Spent options s identity)
    (known : Consistent options (s.setCall c .idle)) : s.outstanding identity = 0 := by
  cases found : s.entries.lookup identity with
  | none => exact known.present identity found
  | some h =>
    obtain ⟨e, here, counted, -⟩ := known.placed identity h found
    have counted' : e.refCount = s.outstanding identity := counted
    have worn := spent h e found here
    simp only [usable, Bool.or_eq_false_iff, decide_eq_false_iff_not] at worn
    omega

theorem Standing.replace {t : State C K Args V}
    (stood : Standing options s c at_) (free : s.locked = none) (spent : Spent options s identity)
    (unheld : s.outstanding identity = 0) (same : ∀ k, k ≠ identity → t.entries.lookup k = s.entries.lookup k)
    (entries : ∀ h e, s.entry h = some e → t.entry h = some e)
    (held : ∀ k, s.holds c k = true → t.holds c k = true) : Standing options t c at_ := by
  have seen {k : K} {h : Nat} (seen : Seen options s k h) : Seen options t k h := by
    obtain ⟨e, here, placed⟩ := seen
    refine ⟨e, entries h e here, fun ready => ?_⟩
    by_cases equal : k = identity
    · subst equal
      have worn := spent h e (placed ready) here
      rw [ready] at worn
      cases worn
    · rw [same k equal]
      exact placed ready
  cases at_ with
  | acquireFound identity' args h => exact seen stood
  | refFound identity' h => exact seen stood
  | acquireRelook identity' parsed h =>
    have locked := stood.1
    rw [free] at locked
    cases locked
  | derefFound identity' h =>
    refine ⟨held identity' stood.1, ?_⟩
    have other : identity' ≠ identity := by
      rintro rfl
      have positive := outstanding_pos_of_holds stood.1
      omega
    rw [same identity' other]
    exact stood.2
  | _ => exact stood

section
variable (known : Consistent options (s.setCall c .idle)) (free : s.locked = none) (spent : Spent options s identity)
include known free spent

theorem Consistent.create {value : V} : Consistent options (s.create c identity value) := by
  have unheld := spent.outstanding known
  have lookup (k : K) : (s.insertEntry identity value).entries.lookup k =
      if k = identity then some s.heap.length else s.entries.lookup k :=
    HashMap.lookup_insert_if _ _ _ _
  have grown (k : K) := outstanding_grant (s := s) c identity k value
  refine ⟨?_, ?_, ?_, ?_, ?_⟩
  · intro k h found
    change (s.insertEntry identity value).entries.lookup k = some h at found
    rw [lookup] at found
    split at found
    · rename_i equal
      subst equal
      cases found
      refine ⟨_, entry_insertEntry_self k value, ?_, ?_⟩
      · have one := grown k
        rw [unheld, if_pos rfl] at one
        exact (congrArg Nat.cast one).symm
      intro r listed named
      rcases mem_cons.mp listed with rfl | old
      · rfl
      · have positive := outstanding_pos (s := s) old
        rw [named, unheld] at positive
        omega
    · rename_i other
      obtain ⟨e, here, counted, valued⟩ := known.placed k h found
      refine ⟨e, entry_insertEntry identity value here, ?_, ?_⟩
      · have still := grown k
        rw [if_neg (Ne.symm other)] at still
        exact counted.trans (congrArg Nat.cast still.symm)
      · intro r listed named
        rcases mem_cons.mp listed with rfl | old
        · exact absurd named.symm other
        · exact valued r old named
  · intro k k' h found found'
    change (s.insertEntry identity value).entries.lookup k = some h at found
    change (s.insertEntry identity value).entries.lookup k' = some h at found'
    rw [lookup] at found found'
    have fresh {k : K} : s.entries.lookup k ≠ some s.heap.length := fun taken => by
      obtain ⟨e, here, -⟩ := known.placed k s.heap.length taken
      exact absurd (lt_of_entry here) (lt_irrefl _)
    split at found
    · rename_i equal
      cases found
      split at found'
      · rename_i equal'
        exact equal.trans equal'.symm
      · exact absurd found' fresh
    · split at found'
      · cases found'
        exact absurd found fresh
      · exact known.injective k k' h found found'
  · intro k absent
    change (s.insertEntry identity value).entries.lookup k = none at absent
    rw [lookup] at absent
    split at absent
    · cases absent
    · rename_i other
      have still := grown k
      rw [if_neg (Ne.symm other)] at still
      exact still.trans (known.present k absent)
  · intro h e here
    rcases entry_of_insertEntry identity value here with old | rfl
    · exact known.narrow h e old
    · exact (by decide : (1 : Int) < 2 ^ 31)
  refine standing_of_others trivial fun c' other => ?_
  refine (known.others other).replace free spent unheld ?_ (fun h e here => entry_insertEntry identity value here)
    (fun k held => holds_grant (s := s) held)
  intro k apart
  exact (lookup k).trans (if_neg apart)

theorem Consistent.remove : Consistent options (State.setCall { s with entries := s.entries.erase identity } c .idle) := by
  have unheld := spent.outstanding known
  have lookup (k : K) : (s.entries.erase identity).lookup k =
      if k = identity then none else s.entries.lookup k :=
    HashMap.lookup_erase_if _ _ _
  have kept {k : K} {h : Nat} (found : (s.entries.erase identity).lookup k = some h) :
      s.entries.lookup k = some h := by
    rw [lookup] at found
    split at found
    · cases found
    · exact found
  refine ⟨fun k h found => known.placed k h (kept found),
    fun k k' h found found' => known.injective k k' h (kept found) (kept found'), ?_, known.narrow, ?_⟩
  · intro k absent
    change (s.entries.erase identity).lookup k = none at absent
    rw [lookup] at absent
    split at absent
    · rename_i equal
      exact equal ▸ unheld
    · exact known.present k absent
  · refine standing_of_others trivial fun c' other => ?_
    refine (known.others other).replace free spent unheld ?_ (fun _ _ here => here) (fun _ held => held)
    intro k apart
    exact (lookup k).trans (if_neg apart)
end

/-- The steps after which the counts still stand: no later section of a call takes out or puts in an entry for an
identity that is in use again, and no count leaves its width. -/
def Permitted (s : State C K Args V) : Action C K Args → Prop
  | .proceed c =>
    match s.calls c with
    | .derefRemove identity => s.Unused identity
    | .refRevive identity _ => s.Unused identity
    | .acquireFound _ _ h => ∀ e, s.entry h = some e → e.refCount < 2 ^ 31 - 1
    | .acquireRelook _ _ h => ∀ e, s.entry h = some e → e.refCount < 2 ^ 31 - 1
    | .refFound _ h => ∀ e, s.entry h = some e → e.refCount < 2 ^ 31 - 1
    | _ => True
  | _ => True

theorem usable_of_not_spent (h : ¬(e.refCount ≤ 0 ∧ (!options.disableDeletion) = true)) : usable options e = true := by
  simp only [usable, Bool.or_eq_true, decide_eq_true_eq]
  by_cases deletes : options.disableDeletion = true
  · exact .inr deletes
  · rw [Bool.not_eq_true] at deletes
    simp only [deletes, Bool.not_false, and_true] at h
    omega

theorem Consistent.proceed (known : Consistent options s) (allowed : s.Permitted (.proceed c))
    (taken : s.proceed options parse c = some s') : Consistent options s' := by
  have stood := known.standing c
  simp only [Permitted] at allowed
  simp only [State.proceed] at taken
  cases at_ : s.calls c with
  | idle =>
    rw [at_] at taken
    cases taken
  | acquireFound identity args h =>
    simp only [at_] at taken stood allowed
    obtain ⟨e, here, next⟩ := Option.bind_eq_some_iff.mp taken
    split at next
    · rename_i ready
      cases next
      obtain ⟨e', there, placed⟩ := stood
      cases here.symm.trans there
      exact (known.idle c).reuse (placed ready) here ready (allowed e here)
    · cases next
      exact known.setCall trivial
  | acquireParse identity args =>
    simp only [at_] at taken
    split at taken
    · rename_i free
      split at taken
      · rename_i h found
        cases taken
        refine known.relock (fun c' _ held => ?_) ⟨rfl, found⟩
        cases free.symm.trans held
      · rename_i absent
        cases taken
        refine (known.idle c).create free fun h e found => ?_
        cases absent.symm.trans found
    · cases taken
  | acquireRelook identity parsed h =>
    simp only [at_] at taken stood allowed
    obtain ⟨locked, found⟩ := stood
    obtain ⟨e, here, next⟩ := Option.bind_eq_some_iff.mp taken
    have known' : Consistent options (State.setCall { s with locked := none } c .idle) := by
      refine known.relock (fun c' other held => ?_) trivial
      cases locked.symm.trans held
      exact other rfl
    split at next
    · rename_i ready
      cases next
      exact known'.reuse found here ready (allowed e here)
    rename_i worn
    cases next
    refine known'.create rfl fun h' e' found' here' => ?_
    cases found.symm.trans found'
    cases here.symm.trans here'
    exact Bool.not_eq_true _ |>.mp worn
  | refFound identity h =>
    simp only [at_] at taken stood allowed
    obtain ⟨e, here, next⟩ := Option.bind_eq_some_iff.mp taken
    split at next
    · rename_i worn
      cases next
      refine known.setCall ?_
      exact Bool.not_eq_true' _ |>.mp worn.2
    rename_i fresh
    have ready := usable_of_not_spent fresh
    cases next
    obtain ⟨e', there, placed⟩ := stood
    cases here.symm.trans there
    exact (known.idle c).reuse (placed ready) here ready (allowed e here)
  | refRevive identity value =>
    simp only [at_] at taken stood allowed
    split at taken
    · rename_i free
      cases taken
      exact (known.idle c).create free (allowed.spent stood)
    · cases taken
  | derefFound identity h =>
    simp only [at_] at taken stood
    obtain ⟨held, found⟩ := stood
    obtain ⟨e, here, next⟩ := Option.bind_eq_some_iff.mp taken
    split at next
    · rename_i last
      cases next
      refine (known.idle c).release found here held ?_
      exact Bool.not_eq_true' _ |>.mp last.2
    · cases next
      exact (known.idle c).release found here held trivial
  | derefRemove identity =>
    simp only [at_] at taken stood allowed
    split at taken
    · rename_i free
      cases taken
      exact (known.idle c).remove free (allowed.spent stood)
    · cases taken

theorem Consistent.lookup (known : Consistent options s) (found : s.entries.lookup identity = some h)
    (call_ : call = .refFound identity h ∨ ∃ args, call = .acquireFound identity args h) :
    Consistent options (s.setCall c call) := by
  obtain ⟨e, here, -⟩ := known.placed identity h found
  refine known.setCall ?_
  rcases call_ with rfl | ⟨args, rfl⟩
  · exact ⟨e, here, fun _ => found⟩
  · exact ⟨e, here, fun _ => found⟩

theorem Consistent.step {a : Action C K Args} (known : Consistent options s) (allowed : s.Permitted a)
    (taken : step options parse s a = some s') : Consistent options s' := by
  cases a with
  | proceed c => exact known.proceed allowed taken
  | acquire c identity args =>
    simp only [State.step] at taken
    split at taken
    · split at taken
      · cases taken
        unfold acquire
        split
        · rename_i h found
          exact known.lookup found (.inr ⟨args, rfl⟩)
        · exact known.setCall trivial
      · cases taken
    · cases taken
  | ref c identity =>
    simp only [State.step] at taken
    split at taken
    · split at taken
      · obtain ⟨h, found, rfl⟩ := Option.map_eq_some_iff.mp taken
        exact known.lookup found (.inl rfl)
      · cases taken
    · cases taken
  | deref c identity =>
    simp only [State.step] at taken
    split at taken
    · split at taken
      · rename_i ready
        split at taken
        · rename_i h found
          cases taken
          exact known.setCall ⟨ready.2, found⟩
        · rename_i absent
          have positive := outstanding_pos_of_holds ready.2
          have zero := known.present identity absent
          omega
      · cases taken
    · cases taken

theorem consistent_of_reaches (run : Reaches (step options parse) Permitted newRefCountCache s) : Consistent options s :=
  run.keeps (Consistent options) consistent_newRefCountCache fun _ _ _ known allowed taken => known.step allowed taken

/-- In every run whose removals and re-insertions concern identities that are not in use, whatever the calls of the
clients do between each other, what is in use stays in the cache and is what a later `acquire` returns. -/
theorem keeps_what_is_in_use (run : Reaches (step options parse) Permitted newRefCountCache s) :
    s.InUse ∧ s.ReturnsHeld options parse :=
  have used := (consistent_of_reaches run).inUse
  ⟨used, used.returnsHeld⟩

/-- Two clients hold the same value. -/
theorem keeps_what_is_in_use_shared : ∃ s : State Bool Unit Unit Nat, s.references.length = 2 ∧
    s.InUse ∧ s.ReturnsHeld ⟨false⟩ fun _ _ => 7 := by
  have allowed : Allowed (step ⟨false⟩ fun _ _ => 7) Permitted (newRefCountCache : State Bool Unit Unit Nat)
      [.acquire false () (), .proceed false, .acquire true () (), .proceed true] := by
    refine ⟨trivial, fun _ first => ?_⟩
    cases first
    refine ⟨trivial, fun _ second => ?_⟩
    cases second
    refine ⟨trivial, fun _ third => ?_⟩
    cases third
    refine ⟨fun e here => ?_, fun _ _ => trivial⟩
    cases here
    decide
  refine ⟨_, ?_, keeps_what_is_in_use (reaches_of_allowed allowed rfl)⟩
  rfl

/-- A client gives back the last reference, and before it removes the entry another client gets a new one. -/
theorem removal_disturbs_use : ∃ s : State Bool Unit Unit Nat,
    Reaches (step ⟨false⟩ fun _ _ => 7) (fun _ _ => True) newRefCountCache s ∧ ¬s.InUse := by
  have ends : ∃ s, steps (step ⟨false⟩ fun _ _ => 7) (newRefCountCache : State Bool Unit Unit Nat)
      [.acquire false () (), .proceed false, .deref false (), .proceed false, .acquire true () (), .proceed true,
        .proceed true, .proceed true, .proceed false] = some s ∧
      s.entries.lookup () = none ∧ s.references = [⟨true, (), 7⟩] := ⟨_, rfl, rfl, rfl⟩
  obtain ⟨s, taken, gone, held⟩ := ends
  refine ⟨s, reaches_of_steps taken, fun used => ?_⟩
  obtain ⟨h, -, found, -⟩ := used ⟨true, (), 7⟩ (by simp [held])
  cases gone.symm.trans found

end State

end TypeScriptRs.Project.RefCountCache
