import TypeScriptRs.Project.OwnerCache

/-! The owner sets of the entries are the current owners. -/
namespace TypeScriptRs.Project.OwnerCache
open Interleaving List

variable {C K O V LoadArgs : Type} {s t : State C K O V LoadArgs}

namespace State

variable {c c' : C} {call at_ : Call K O V LoadArgs} {k : K} {h : Nat} {e : OwnerCacheEntry O V} {o : O}

section
variable {h : Nat} {e : OwnerCacheEntry O V}

/-- What a call alone may do next: finish the entry of a key that has no owners, or give back what an owner holds. -/
def claim : Call K O V LoadArgs → Option (K ⊕ K × O)
  | .fill identity _ _ _ false => some (.inl identity)
  | .releaseRemove identity => some (.inl identity)
  | .releaseFound identity owner _ => some (.inr (identity, owner))
  | _ => none

theorem lt_of_entry (here : s.entry h = some e) : h < s.heap.length :=
  (List.getElem?_eq_some_iff.mp here).1

theorem entry_setEntry {h' : Nat} {e' : OwnerCacheEntry O V} (here : s.entry h = some e') :
    (s.setEntry h e).entry h' = if h' = h then some e else s.entry h' := by
  by_cases same : h' = h
  · subst same
    simp only [setEntry, entry, List.getElem?_set_self (lt_of_entry here), if_pos]
  · simp only [setEntry, entry, List.getElem?_set_ne (Ne.symm same), if_neg same]

variable [DecidableEq K]

/-- A handle that a call has read from the table under a key: the table has it under no other. -/
def Seen (s : State C K O V LoadArgs) (identity : K) (h : Nat) : Prop :=
  (∃ e, s.entry h = some e) ∧ ∀ k, s.entries.lookup k = some h → k = identity

def Unowned (s : State C K O V LoadArgs) (identity : K) (h : Nat) : Prop :=
  s.entries.lookup identity = some h ∧ ∃ e, s.entry h = some e ∧ e.owners = ∅

theorem entry_insertEntry [Inhabited V] (identity : K) (here : s.entry h = some e) : (s.insertEntry identity).entry h = some e :=
  (List.getElem?_append_left (lt_of_entry here)).trans here

theorem entry_insertEntry_self [Inhabited V] (identity : K) : (s.insertEntry identity).entry s.heap.length = some ⟨default, ∅⟩ :=
  List.getElem?_concat_length

theorem entry_of_insertEntry [Inhabited V] (identity : K)
    (here : (s.insertEntry identity).entry h = some e) : s.entry h = some e ∨ e = ⟨default, ∅⟩ := by
  change (s.heap ++ [⟨default, ∅⟩])[h]? = some e at here
  rcases Nat.lt_or_ge h s.heap.length with old | new
  · exact .inl ((List.getElem?_append_left old).symm.trans here)
  · have only := (List.getElem?_append_right new).symm.trans here
    exact .inr (mem_singleton.mp (mem_of_getElem? only))
end

section
variable [DecidableEq C]

theorem sole_setCall {c : C} {call : Call K O V LoadArgs}
    (others : ∀ c₁ c₂ x, c₁ ≠ c → c₂ ≠ c → claim (s.calls c₁) = some x → claim (s.calls c₂) = some x → c₁ = c₂)
    (free : ∀ c' x, c' ≠ c → claim call = some x → claim (s.calls c') ≠ some x) (c₁ c₂ : C) (x : K ⊕ K × O)
    (first : claim ((s.setCall c call).calls c₁) = some x) (second : claim ((s.setCall c call).calls c₂) = some x) :
    c₁ = c₂ := by
  simp only [setCall] at first second
  by_cases same₁ : c₁ = c
  · by_cases same₂ : c₂ = c
    · exact same₁.trans same₂.symm
    · subst same₁
      rw [Function.update_self] at first
      rw [Function.update_of_ne same₂] at second
      exact absurd second (free c₂ x same₂ first)
  rw [Function.update_of_ne same₁] at first
  by_cases same₂ : c₂ = c
  · subst same₂
    rw [Function.update_self] at second
    exact absurd first (free c₁ x same₁ second)
  · rw [Function.update_of_ne same₂] at second
    exact others c₁ c₂ x same₁ same₂ first second
end

section
variable [DecidableEq K] [DecidableEq O]

def Standing (s : State C K O V LoadArgs) : Call K O V LoadArgs → Prop
  | .idle => True
  | .load _ _ _ => True
  | .loadFound identity _ _ h => Seen s identity h
  | .fill identity _ _ h true => Seen s identity h
  | .fill identity _ _ h false => Unowned s identity h
  | .addOwnerFound identity _ h => Seen s identity h
  | .releaseFound identity owner h =>
    owner ∈ s.currentOwners identity ∧ (identity, owner) ∈ s.releasing ∧ s.entries.lookup identity = some h
  | .releaseRemove identity => ∃ h, Unowned s identity h

structure Consistent (s : State C K O V LoadArgs) : Prop where
  placed : ∀ k h, s.entries.lookup k = some h → ∃ e, s.entry h = some e ∧ e.owners = s.currentOwners k
  injective : ∀ k k' h, s.entries.lookup k = some h → s.entries.lookup k' = some h → k = k'
  present : ∀ k, s.entries.lookup k = none → s.currentOwners k = ∅
  live : ∀ h e, s.entry h = some e → e.owners ≠ ∅ → ∃ k, s.entries.lookup k = some h
  sole : ∀ c c' x, claim (s.calls c) = some x → claim (s.calls c') = some x → c = c'
  standing : ∀ c, Standing s (s.calls c)

theorem mem_currentOwners {k : K} {o : O} : o ∈ s.currentOwners k ↔ ∃ r ∈ s.held, r.identity = k ∧ r.owner = o := by
  simp only [currentOwners, mem_toFinset, mem_map, mem_filter, decide_eq_true_eq, and_assoc]

theorem owns_iff {k : K} {o : O} : s.owns k o = true ↔ o ∈ s.currentOwners k := by
  simp only [owns, any_eq_true, decide_eq_true_eq, mem_currentOwners]

theorem currentOwners_grant (k k' : K) (o : O) (v : V) :
    (s.grant k o v).currentOwners k' = if k' = k then insert o (s.currentOwners k') else s.currentOwners k' := by
  ext o'
  simp only [mem_currentOwners, grant, mem_cons, or_and_right, exists_or, exists_eq_left]
  split
  · rename_i same
    simp only [same, true_and, Finset.mem_insert, mem_currentOwners, eq_comm]
  · rename_i other
    simp only [Ne.symm other, false_and, false_or, mem_currentOwners]

theorem currentOwners_giveBack (k k' : K) (o : O) :
    (s.giveBack k o).currentOwners k' = if k' = k then (s.currentOwners k').erase o else s.currentOwners k' := by
  ext o'
  split
  · rename_i same
    subst same
    simp only [mem_currentOwners, giveBack, mem_filter, Finset.mem_erase]
    grind
  · simp only [mem_currentOwners, giveBack, mem_filter]
    grind

theorem Standing.frame {at_ : Call K O V LoadArgs} (stood : Standing s at_)
    (entry : ∀ h e, s.entry h = some e → ∃ e', t.entry h = some e')
    (lookup : ∀ k h e, s.entry h = some e → t.entries.lookup k = some h → s.entries.lookup k = some h)
    (unowned : ∀ k h, claim at_ = some (.inl k) → Unowned s k h → Unowned t k h)
    (releasing : ∀ k o h, claim at_ = some (.inr (k, o)) → Standing s (.releaseFound k o h) →
      Standing t (.releaseFound k o h)) : Standing t at_ := by
  have seen {k : K} {h : Nat} (seen : Seen s k h) : Seen t k h := by
    obtain ⟨⟨e, here⟩, only⟩ := seen
    exact ⟨entry h e here, fun k' found => only k' (lookup k' h e here found)⟩
  cases at_ with
  | idle => trivial
  | load => trivial
  | loadFound identity owner request h => exact seen stood
  | fill identity owner request h loaded =>
    cases loaded with
    | true => exact seen stood
    | false => exact unowned identity h rfl stood
  | addOwnerFound identity owner h => exact seen stood
  | releaseFound identity owner h => exact releasing identity owner h rfl stood
  | releaseRemove identity =>
    obtain ⟨h, empty⟩ := stood
    exact ⟨h, unowned identity h rfl empty⟩
end

variable [DecidableEq C] [DecidableEq K] [DecidableEq O]

theorem standing_setCall : Standing (s.setCall c call) at_ ↔ Standing s at_ := by
  rcases at_ with _ | _ | _ | ⟨_, _, _, _, _ | _⟩ | _ | _ | _ <;> exact Iff.rfl

theorem forall_standing_setCall (stands : Standing s call) (others : ∀ c', c' ≠ c → Standing s (s.calls c')) (c' : C) :
    Standing (s.setCall c call) ((s.setCall c call).calls c') := by
  rw [standing_setCall]
  by_cases same : c' = c
  · subst same
    simpa only [setCall, Function.update_self] using stands
  · simpa only [setCall, Function.update_of_ne same] using others c' same

theorem Consistent.others_sole (known : Consistent (s.setCall c call))
    (c₁ c₂ : C) (x : K ⊕ K × O) (other₁ : c₁ ≠ c) (other₂ : c₂ ≠ c) (first : claim (s.calls c₁) = some x)
    (second : claim (s.calls c₂) = some x) : c₁ = c₂ := by
  refine known.sole c₁ c₂ x ?_ ?_
  · simpa only [setCall, Function.update_of_ne other₁] using first
  · simpa only [setCall, Function.update_of_ne other₂] using second

theorem Consistent.others (known : Consistent (s.setCall c call)) (other : c' ≠ c) : Standing s (s.calls c') := by
  have stood := known.standing c'
  rw [standing_setCall] at stood
  simpa only [State.setCall, Function.update_of_ne other] using stood

theorem Consistent.setCall (known : Consistent s) (stands : Standing s call)
    (free : ∀ c' x, c' ≠ c → claim call = some x → claim (s.calls c') ≠ some x) : Consistent (s.setCall c call) where
  placed := known.placed
  injective := known.injective
  present := known.present
  live := known.live
  sole := sole_setCall (fun c₁ c₂ x _ _ => known.sole c₁ c₂ x) free
  standing := forall_standing_setCall stands fun c' _ => known.standing c'

theorem Consistent.setUnclaimed (known : Consistent s) (stands : Standing s call)
    (free : claim call = none) : Consistent (s.setCall c call) :=
  known.setCall stands fun c' x _ claimed => by
    rw [free] at claimed
    cases claimed

theorem Consistent.idle (c : C) (known : Consistent s) : Consistent (s.setCall c .idle) :=
  known.setUnclaimed trivial rfl

omit [DecidableEq C] in
theorem unowned_of_claim (stood : Standing s at_) (claimed : claim at_ = some (.inl k)) : ∃ h, Unowned s k h := by
  rcases at_ with _ | _ | _ | ⟨identity, _, _, h, _ | _⟩ | _ | _ | identity
  all_goals cases claimed
  · exact ⟨h, stood⟩
  · exact stood

theorem Consistent.unclaimed
    (known : Consistent (s.setCall c .idle)) (found : s.entries.lookup k = some h) (here : s.entry h = some e)
    (owned : e.owners ≠ ∅) (other : c' ≠ c) : claim (s.calls c') ≠ some (.inl k) := by
  intro claimed
  obtain ⟨h', found', e', here', empty⟩ := unowned_of_claim (known.others other) claimed
  cases found.symm.trans found'
  cases here.symm.trans here'
  exact owned empty

theorem Consistent.placed_of
    (known : Consistent (s.setCall c call)) (found : s.entries.lookup k = some h) (here : s.entry h = some e) :
    e.owners = s.currentOwners k := by
  obtain ⟨e', here', exact_⟩ := known.placed k h found
  cases here.symm.trans here'
  exact exact_

theorem Consistent.insertEntry [Inhabited V] {request : Request K V LoadArgs}
    (known : Consistent (s.setCall c .idle)) (absent : s.entries.lookup k = none) :
    Consistent ((s.insertEntry k).setCall c (.fill k o request s.heap.length false)) := by
  have lookup (k' : K) : (s.insertEntry k).entries.lookup k' =
      if k' = k then some s.heap.length else s.entries.lookup k' :=
    HashMap.lookup_insert_if _ _ _ _
  have old {k' : K} {h : Nat} {e : OwnerCacheEntry O V} (here : s.entry h = some e)
      (found : (s.insertEntry k).entries.lookup k' = some h) : s.entries.lookup k' = some h := by
    rw [lookup] at found
    split at found
    · cases found
      exact absurd (lt_of_entry here) (lt_irrefl _)
    · exact found
  have kept {k' : K} {h : Nat} (found : s.entries.lookup k' = some h) :
      (s.insertEntry k).entries.lookup k' = some h := by
    rw [lookup, if_neg]
    · exact found
    · rintro rfl
      cases absent.symm.trans found
  refine ⟨?_, ?_, ?_, ?_, ?_, ?_⟩
  · intro k' h found
    change (s.insertEntry k).entries.lookup k' = some h at found
    rw [lookup] at found
    split at found
    · rename_i same
      cases found
      exact ⟨_, entry_insertEntry_self k, same ▸ (known.present k absent).symm⟩
    · obtain ⟨e, here, owners⟩ := known.placed k' h found
      exact ⟨e, entry_insertEntry k here, owners⟩
  · intro k₁ k₂ h found₁ found₂
    change (s.insertEntry k).entries.lookup k₁ = some h at found₁
    change (s.insertEntry k).entries.lookup k₂ = some h at found₂
    have fresh {k' : K} : s.entries.lookup k' ≠ some s.heap.length := fun taken => by
      obtain ⟨e, here, -⟩ := known.placed k' s.heap.length taken
      exact absurd (lt_of_entry here) (lt_irrefl _)
    rw [lookup] at found₁ found₂
    split at found₁
    · rename_i same₁
      cases found₁
      split at found₂
      · rename_i same₂
        exact same₁.trans same₂.symm
      · exact absurd found₂ fresh
    · split at found₂
      · cases found₂
        exact absurd found₁ fresh
      · exact known.injective k₁ k₂ h found₁ found₂
  · intro k' absent'
    change (s.insertEntry k).entries.lookup k' = none at absent'
    rw [lookup] at absent'
    split at absent'
    · cases absent'
    · exact known.present k' absent'
  · intro h e here owned
    rcases entry_of_insertEntry k here with before | rfl
    · obtain ⟨k', found⟩ := known.live h e before owned
      exact ⟨k', kept found⟩
    · exact absurd rfl owned
  · refine sole_setCall known.others_sole fun c' x other claimed claimed' => ?_
    cases claimed
    obtain ⟨h, found, -⟩ := unowned_of_claim (known.others other) claimed'
    cases absent.symm.trans found
  refine forall_standing_setCall ⟨?_, _, entry_insertEntry_self k, rfl⟩ fun c' other => ?_
  · rw [lookup, if_pos rfl]
  refine (known.others other).frame (fun h e here => ⟨e, entry_insertEntry k here⟩)
    (fun k' h e here found => old here found) ?_ ?_
  · rintro k' h - ⟨found, e, here, empty⟩
    exact ⟨kept found, e, entry_insertEntry k here, empty⟩
  · rintro k' o' h - ⟨owner, releasing, found⟩
    exact ⟨owner, releasing, kept found⟩

section
variable (known : Consistent (s.setCall c .idle)) (found : s.entries.lookup k = some h) (here : s.entry h = some e)
include known found here

theorem Consistent.reown {e' : OwnerCacheEntry O V} (same : t.entries = s.entries ∧ t.heap = s.heap.set h e' ∧ t.calls = s.calls)
    (free : ∀ c', c' ≠ c → claim (s.calls c') ≠ some (.inl k)) (owners : e'.owners = t.currentOwners k)
    (others : ∀ k', k' ≠ k → t.currentOwners k' = s.currentOwners k')
    (releasing : ∀ c' k' o' h', c' ≠ c → claim (s.calls c') = some (.inr (k', o')) →
      Standing s (.releaseFound k' o' h') → Standing t (.releaseFound k' o' h'))
    (stands : Standing t call) (sole : ∀ c' x, c' ≠ c → claim call = some x → claim (s.calls c') ≠ some x) :
    Consistent (t.setCall c call) := by
  obtain ⟨entries, heap, calls⟩ := same
  have entry (h' : Nat) : t.entry h' = if h' = h then some e' else s.entry h' := by
    rw [State.entry, heap]
    exact entry_setEntry here
  have apart {k' : K} {h' : Nat} (other : k' ≠ k) (found' : s.entries.lookup k' = some h') : h' ≠ h :=
    fun same => other (known.injective k' k h' found' (same ▸ found))
  refine ⟨?_, ?_, ?_, ?_, ?_, ?_⟩
  · intro k' h' found'
    change t.entries.lookup k' = some h' at found'
    rw [entries] at found'
    by_cases same : k' = k
    · subst same
      cases found.symm.trans found'
      exact ⟨e', (entry h).trans (if_pos rfl), owners⟩
    · obtain ⟨e₁, here₁, exact_⟩ := known.placed k' h' found'
      exact ⟨e₁, ((entry h').trans (if_neg (apart same found'))).trans here₁, exact_.trans (others k' same).symm⟩
  · intro k₁ k₂ h' found₁ found₂
    change t.entries.lookup k₁ = some h' at found₁
    change t.entries.lookup k₂ = some h' at found₂
    rw [entries] at found₁ found₂
    exact known.injective k₁ k₂ h' found₁ found₂
  · intro k' absent
    change t.entries.lookup k' = none at absent
    rw [entries] at absent
    have other : k' ≠ k := by
      rintro rfl
      cases found.symm.trans absent
    exact (others k' other).trans (known.present k' absent)
  · intro h' e₁ here₁ owned
    change ∃ k', t.entries.lookup k' = some h'
    rw [entries]
    have old := (entry h').symm.trans here₁
    split at old
    · rename_i same
      exact ⟨k, same ▸ found⟩
    · exact known.live h' e₁ old owned
  · refine sole_setCall ?_ ?_
    · rw [calls]
      exact known.others_sole
    · rw [calls]
      exact sole
  refine forall_standing_setCall stands fun c' other => ?_
  rw [calls]
  refine (known.others other).frame ?_ ?_ ?_ (fun k' o' h' claimed => releasing c' k' o' h' other claimed)
  · intro h' e₁ here₁
    rw [entry]
    split
    · exact ⟨_, rfl⟩
    · exact ⟨e₁, here₁⟩
  · intro k' h' e₁ _ found'
    exact entries ▸ found'
  rintro k' h' claimed ⟨found', e₁, here₁, empty⟩
  have other' : k' ≠ k := by
    rintro rfl
    exact free c' other claimed
  refine ⟨entries ▸ found', e₁, ?_, empty⟩
  exact ((entry h').trans (if_neg (apart other' found'))).trans here₁

theorem Consistent.addTo {value : V}
    (free : ∀ c', c' ≠ c → claim (s.calls c') ≠ some (.inl k)) : Consistent (s.addTo c k o h e value) := by
  have owners (k' : K) := currentOwners_grant (s := s) k k' o value
  refine known.reown found here ⟨rfl, rfl, rfl⟩ free ?_ ?_ ?_ trivial nofun
  · rw [known.placed_of found here]
    exact ((owners k).trans (if_pos rfl)).symm
  · intro k' other
    exact (owners k').trans (if_neg other)
  rintro c' k' o' h' - - ⟨owner, releasing, found'⟩
  refine ⟨?_, releasing, found'⟩
  have more := owners k'
  split at more
  · exact more ▸ Finset.mem_insert_of_mem owner
  · exact more ▸ owner

theorem Consistent.giveBack (held : o ∈ s.currentOwners k) (sole : ∀ c', c' ≠ c → claim (s.calls c') ≠ some (.inr (k, o)))
    (call_ : call = .idle ∨ call = .releaseRemove k ∧ e.owners.erase o = ∅) :
    Consistent (((s.setEntry h { e with owners := e.owners.erase o }).giveBack k o).setCall c call) := by
  have exact_ := known.placed_of found here
  have owned : e.owners ≠ ∅ := fun empty => by
    rw [← exact_, empty] at held
    exact absurd held (Finset.notMem_empty o)
  have free (c' : C) (other : c' ≠ c) := known.unclaimed found here owned other
  have owners (k' : K) := currentOwners_giveBack (s := s) k k' o
  refine known.reown found here ⟨rfl, rfl, rfl⟩ free ?_ ?_ ?_ ?_ ?_
  · rw [exact_]
    exact ((owners k).trans (if_pos rfl)).symm
  · intro k' other
    exact (owners k').trans (if_neg other)
  · rintro c' k' o' h' other claimed ⟨owner, releasing, found'⟩
    have different : (k', o') ≠ (k, o) := fun same => sole c' other (same ▸ claimed)
    refine ⟨?_, mem_filter.mpr ⟨releasing, decide_eq_true different⟩, found'⟩
    have fewer := owners k'
    split at fewer
    · rename_i same
      subst same
      exact fewer ▸ Finset.mem_erase.mpr ⟨fun same => different (congrArg _ same), owner⟩
    · exact fewer ▸ owner
  · rcases call_ with rfl | ⟨rfl, empty⟩
    · trivial
    · exact ⟨h, found, _, (entry_setEntry here).trans (if_pos rfl), empty⟩
  rcases call_ with rfl | ⟨rfl, empty⟩
  · exact nofun
  · intro c' x other claimed
    cases claimed
    exact free c' other
end

theorem Consistent.remove (known : Consistent (s.setCall c .idle))
    (unowned : Unowned s k h) (free : ∀ c', c' ≠ c → claim (s.calls c') ≠ some (.inl k)) :
    Consistent (State.setCall { s with entries := s.entries.erase k } c .idle) := by
  obtain ⟨found, e, here, empty⟩ := unowned
  have exact_ := known.placed_of found here
  have lookup (k' : K) : (s.entries.erase k).lookup k' = if k' = k then none else s.entries.lookup k' :=
    HashMap.lookup_erase_if _ _ _
  have old {k' : K} {h : Nat} (found : (s.entries.erase k).lookup k' = some h) :
      s.entries.lookup k' = some h := by
    rw [lookup] at found
    split at found
    · cases found
    · exact found
  have kept {k' : K} {h : Nat} (other : k' ≠ k) (found : s.entries.lookup k' = some h) :
      (s.entries.erase k).lookup k' = some h :=
    ((lookup k').trans (if_neg other)).trans found
  refine ⟨fun k' h' found' => known.placed k' h' (old found'),
    fun k₁ k₂ h' found₁ found₂ => known.injective k₁ k₂ h' (old found₁) (old found₂), ?_, ?_, ?_, ?_⟩
  · intro k' absent
    change (s.entries.erase k).lookup k' = none at absent
    rw [lookup] at absent
    split at absent
    · rename_i same
      exact same ▸ exact_.symm.trans empty
    · exact known.present k' absent
  · intro h' e' here' owned
    obtain ⟨k', found'⟩ := known.live h' e' here' owned
    refine ⟨k', kept ?_ found'⟩
    rintro rfl
    cases found.symm.trans found'
    cases here.symm.trans here'
    exact owned empty
  · exact sole_setCall known.others_sole nofun
  refine forall_standing_setCall trivial fun c' other => ?_
  refine (known.others other).frame (fun h e here => ⟨e, here⟩) (fun _ _ _ _ found => old found) ?_ ?_
  · rintro k' h' claimed ⟨found', rest⟩
    refine ⟨kept ?_ found', rest⟩
    rintro rfl
    exact free c' other claimed
  rintro k' o' h' - ⟨owner, releasing, found'⟩
  refine ⟨owner, releasing, kept ?_ found'⟩
  rintro rfl
  rw [← exact_, empty] at owner
  exact absurd owner (Finset.notMem_empty o')

omit [DecidableEq C] in
theorem Consistent.seen (known : Consistent s) (found : s.entries.lookup k = some h) : Seen s k h := by
  obtain ⟨e, here, -⟩ := known.placed k h found
  exact ⟨⟨e, here⟩, fun k' found' => known.injective k' k h found' found⟩

omit [DecidableEq C] in
theorem Consistent.lookup_of_owned (known : Consistent s)
    (seen : Seen s k h) (here : s.entry h = some e) (owned : e.owners ≠ ∅) : s.entries.lookup k = some h := by
  obtain ⟨k', found⟩ := known.live h e here owned
  exact seen.2 k' found ▸ found

theorem Consistent.releasing (known : Consistent s)
    (found : s.entries.lookup k = some h) (held : o ∈ s.currentOwners k) (first : (k, o) ∉ s.releasing) :
    Consistent (State.setCall { s with releasing := (k, o) :: s.releasing } c (.releaseFound k o h)) where
  placed := known.placed
  injective := known.injective
  present := known.present
  live := known.live
  sole := by
    refine sole_setCall (fun c₁ c₂ x _ _ => known.sole c₁ c₂ x) fun c' x _ claimed claimed' => ?_
    cases claimed
    have stood := known.standing c'
    change claim (s.calls c') = some (.inr (k, o)) at claimed'
    rcases at_ : s.calls c' with _ | _ | _ | ⟨_, _, _, _, _ | _⟩ | _ | ⟨_, _, h'⟩ | _
    all_goals
      rw [at_] at claimed'
      cases claimed'
    rw [at_] at stood
    exact first stood.2.1
  standing := by
    refine forall_standing_setCall ⟨held, mem_cons_self, found⟩ fun c' _ => ?_
    refine (known.standing c').frame (fun h e here => ⟨e, here⟩) (fun _ _ _ _ found => found)
      (fun _ _ _ unowned => unowned) ?_
    rintro k' o' h' - ⟨owner, listed, found'⟩
    exact ⟨owner, mem_cons_of_mem _ listed, found'⟩

end State

end TypeScriptRs.Project.OwnerCache
