import TypeScriptRs.Project.Owners

/-! Runs of the owned entries, and what holds in every state. -/
namespace TypeScriptRs.Project.OwnerCache
open Interleaving

variable {C K O V LoadArgs : Type} [DecidableEq C] [DecidableEq K] [DecidableEq O] {s t : State C K O V LoadArgs}

namespace State

variable {c : C} {call : Call K O V LoadArgs} {k : K} {o : O} {h : Nat} {e : OwnerCacheEntry O V} {value : V}

/-- An entry without owners is one that a call is about to finish. -/
def Attended (s : State C K O V LoadArgs) : Prop :=
  ∀ k h, Unowned s k h → ∃ c, claim (s.calls c) = some (.inl k)

omit [DecidableEq O] in
theorem Attended.setCall (known : Attended s) (calls : t.calls = s.calls) (each : ∀ k h, Unowned t k h →
      claim call = some (.inl k) ∨ Unowned s k h ∧ claim (s.calls c) ≠ some (.inl k)) :
    Attended (t.setCall c call) := by
  intro k h unowned
  rcases each k h unowned with taken | ⟨before, other⟩
  · exact ⟨c, by simpa only [State.setCall, Function.update_self] using taken⟩
  obtain ⟨c', claimed⟩ := known k h before
  have apart : c' ≠ c := by
    rintro rfl
    exact other claimed
  exact ⟨c', by simpa only [State.setCall, calls, Function.update_of_ne apart] using claimed⟩

omit [DecidableEq O] in
theorem Attended.move (known : Attended s) (idle : ∀ k, claim (s.calls c) ≠ some (.inl k)) : Attended (s.setCall c call) :=
  known.setCall rfl fun k _ unowned => .inr ⟨unowned, idle k⟩

theorem Attended.addTo (known : Attended s) (found : s.entries.lookup k = some h) (here : s.entry h = some e)
    (only : ∀ k', claim (s.calls c) = some (.inl k') → k' = k) : Attended (s.addTo c k o h e value) := by
  refine known.setCall rfl fun k' h' unowned => ?_
  obtain ⟨found', e', here', empty⟩ := unowned
  have old := (entry_setEntry here).symm.trans here'
  split at old
  · cases old
    exact absurd empty (Finset.insert_ne_empty o e.owners)
  · rename_i apart
    refine .inr ⟨⟨found', e', old, empty⟩, fun claimed => apart ?_⟩
    cases only k' claimed
    exact Option.some.inj (found'.symm.trans found)

theorem Attended.giveBack
    (attended : Attended s) (known : Consistent s) (found : s.entries.lookup k = some h) (here : s.entry h = some e)
    (idle : ∀ k, claim (s.calls c) ≠ some (.inl k)) (last : e.owners.erase o = ∅ → claim call = some (.inl k)) :
    Attended (((s.setEntry h { e with owners := e.owners.erase o }).giveBack k o).setCall c call) := by
  refine attended.setCall rfl fun k' h' unowned => ?_
  obtain ⟨found', e', here', empty⟩ := unowned
  have old := (entry_setEntry here).symm.trans here'
  split at old
  · rename_i same
    cases old
    cases known.injective k k' h found (same ▸ found')
    exact .inl (last empty)
  · exact .inr ⟨⟨found', e', old, empty⟩, idle k'⟩

/-- No call adds its owner to an entry that lost its last owner since the call looked it up. -/
def Permitted (s : State C K O V LoadArgs) : Action C K O V LoadArgs → Prop
  | .proceed c =>
    match s.calls c with
    | .fill _ _ _ h true => ∀ e, s.entry h = some e → e.owners ≠ ∅
    | _ => True
  | _ => True

variable [Inhabited V] {isExpired : Option (K → V → LoadArgs → Bool)} {s' : State C K O V LoadArgs}

/-- No call finds the value of an entry that has owners expired. -/
def Fresh (isExpired : Option (K → V → LoadArgs → Bool)) (s : State C K O V LoadArgs) :
    Action C K O V LoadArgs → Prop
  | .proceed c =>
    match s.calls c with
    | .fill identity _ (.loadAndAcquire loadArgs _) h true =>
      ∀ e, s.entry h = some e → expired isExpired identity e.value loadArgs = false
    | _ => True
  | _ => True

/-- What a step does to a consistent state, with the value that an entry keeps where the values are fresh. -/
inductive Effect (fresh : Prop) (s : State C K O V LoadArgs) : State C K O V LoadArgs → Prop
  | move {c : C} {call : Call K O V LoadArgs} (idle : ∀ k, claim (s.calls c) ≠ some (.inl k)) (stands : Standing s call)
      (free : claim call = none) : Effect fresh s (s.setCall c call)
  | insertEntry {c : C} {k : K} {o : O} {request : Request K V LoadArgs}
      (idle : ∀ k, claim (s.calls c) ≠ some (.inl k)) (absent : s.entries.lookup k = none) :
      Effect fresh s ((s.insertEntry k).setCall c (.fill k o request s.heap.length false))
  | addTo {c : C} {k : K} {o : O} {h : Nat} {e : OwnerCacheEntry O V} {value : V}
      (found : s.entries.lookup k = some h) (here : s.entry h = some e)
      (free : ∀ c', c' ≠ c → claim (s.calls c') ≠ some (.inl k))
      (only : ∀ k', claim (s.calls c) = some (.inl k') → k' = k)
      (kept : fresh → e.value = value ∨ e.owners = ∅) : Effect fresh s (s.addTo c k o h e value)
  | releasing {c : C} {k : K} {o : O} {h : Nat} (idle : ∀ k, claim (s.calls c) ≠ some (.inl k)) (found : s.entries.lookup k = some h)
      (held : o ∈ s.currentOwners k) (first : (k, o) ∉ s.releasing) :
      Effect fresh s (State.setCall { s with releasing := (k, o) :: s.releasing } c (.releaseFound k o h))
  | giveBack {c : C} {k : K} {o : O} {h : Nat} {e : OwnerCacheEntry O V} {call : Call K O V LoadArgs}
      (own : claim (s.calls c) = some (.inr (k, o))) (found : s.entries.lookup k = some h) (here : s.entry h = some e) (held : o ∈ s.currentOwners k)
      (call_ : call = .idle ∧ e.owners.erase o ≠ ∅ ∨ call = .releaseRemove k ∧ e.owners.erase o = ∅) :
      Effect fresh s (((s.setEntry h { e with owners := e.owners.erase o }).giveBack k o).setCall c call)
  | remove {c : C} {k : K} {h : Nat} (own : claim (s.calls c) = some (.inl k)) (unowned : Unowned s k h) :
      Effect fresh s (State.setCall { s with entries := s.entries.erase k } c .idle)

theorem Consistent.proceed (known : Consistent s) (allowed : s.Permitted (.proceed c))
    (taken : s.proceed isExpired c = some s') : Effect (s.Fresh isExpired (.proceed c)) s s' := by
  have stood := known.standing c
  have idle (none_ : claim (s.calls c) = none) (k : K) : claim (s.calls c) ≠ some (.inl k) := by
    rw [none_]
    rintro ⟨⟩
  have owned {k : K} {h : Nat} {e : OwnerCacheEntry O V} {v : V} {o : O} (none_ : claim (s.calls c) = none)
      (seen : Seen s k h) (here : s.entry h = some e) (owners : e.owners ≠ ∅)
      (kept : s.Fresh isExpired (.proceed c) → e.value = v) :
      Effect (s.Fresh isExpired (.proceed c)) s (s.addTo c k o h e v) := by
    have found := known.lookup_of_owned seen here owners
    exact .addTo found here (fun c' other => (known.idle c).unclaimed found here owners other)
      (fun k' claimed => absurd claimed (idle none_ k')) fun fresh => .inl (kept fresh)
  simp only [Permitted] at allowed
  simp only [State.proceed] at taken
  cases at_ : s.calls c with
  | idle =>
    rw [at_] at taken
    cases taken
  | load identity owner request =>
    have none_ := idle (by rw [at_]; rfl)
    simp only [at_] at taken
    split at taken
    · rename_i h found
      cases taken
      exact .move none_ (known.seen found) rfl
    · rename_i absent
      cases taken
      exact .insertEntry none_ absent
  | loadFound identity owner request h =>
    have none_ := idle (by rw [at_]; rfl)
    simp only [at_] at taken stood
    obtain ⟨e, here, next⟩ := Option.bind_eq_some_iff.mp taken
    split at next
    · cases next
      exact .move none_ trivial rfl
    · cases next
      exact .move none_ stood rfl
  | fill identity owner request h loaded =>
    simp only [at_] at taken
    obtain ⟨e, here, next⟩ := Option.bind_eq_some_iff.mp taken
    cases next
    cases loaded with
    | true =>
      simp only [at_] at stood allowed
      refine owned (by rw [at_]; rfl) stood here (allowed e here) fun fresh => ?_
      cases request with
      | loadAndAcquire loadArgs parse =>
        simp only [Fresh, at_] at fresh
        simp [filled, fresh e here]
      | acquire value => rfl
    | false =>
      have own : claim (s.calls c) = some (.inl identity) := by rw [at_]; rfl
      rw [at_] at stood
      obtain ⟨found, e', here', empty⟩ := stood
      cases here.symm.trans here'
      refine .addTo found here (fun c' other claimed => other (known.sole c' c _ claimed own)) (fun k' claimed => ?_)
        fun _ => .inr empty
      cases own.symm.trans claimed
      rfl
  | addOwnerFound identity owner h =>
    simp only [at_] at taken stood
    obtain ⟨e, here, next⟩ := Option.bind_eq_some_iff.mp taken
    split at next
    · cases next
    · rename_i owners
      cases next
      exact owned (by rw [at_]; rfl) stood here owners fun _ => rfl
  | releaseFound identity owner h =>
    have own : claim (s.calls c) = some (.inr (identity, owner)) := by rw [at_]; rfl
    simp only [at_] at taken stood
    obtain ⟨held, -, found⟩ := stood
    obtain ⟨e, here, next⟩ := Option.bind_eq_some_iff.mp taken
    split at next
    · rename_i last
      cases next
      exact .giveBack own found here held (.inr ⟨rfl, last⟩)
    · rename_i more
      cases next
      exact .giveBack own found here held (.inl ⟨rfl, more⟩)
  | releaseRemove identity =>
    have own : claim (s.calls c) = some (.inl identity) := by rw [at_]; rfl
    simp only [at_] at taken stood
    obtain ⟨h, unowned⟩ := stood
    cases taken
    exact .remove own unowned

theorem Consistent.effect {a : Action C K O V LoadArgs} (known : Consistent s) (allowed : s.Permitted a)
    (taken : step isExpired s a = some s') : Effect (s.Fresh isExpired a) s s' := by
  cases a with
  | proceed c => exact known.proceed allowed taken
  | load c identity owner request =>
    simp only [State.step] at taken
    split at taken
    · rename_i at_
      cases taken
      exact .move (by rw [at_]; rintro _ ⟨⟩) trivial rfl
    · cases taken
  | addOwner c identity owner =>
    simp only [State.step] at taken
    split at taken
    · rename_i at_
      obtain ⟨h, found, rfl⟩ := Option.map_eq_some_iff.mp taken
      exact .move (by rw [at_]; rintro _ ⟨⟩) (known.seen found) rfl
    · cases taken
  | release c identity owner =>
    simp only [State.step] at taken
    split at taken
    · rename_i at_
      split at taken
      · rename_i ready
        have held := owns_iff.mp ready.1
        split at taken
        · rename_i h found
          cases taken
          exact .releasing (by rw [at_]; rintro _ ⟨⟩) found held ready.2
        · rename_i absent
          rw [known.present identity absent] at held
          exact absurd held (Finset.notMem_empty owner)
      · cases taken
    · cases taken

variable {fresh : Prop}

theorem Effect.consistent (effect : Effect fresh s s') (known : Consistent s) : Consistent s' := by
  cases effect with
  | move idle stands free => exact known.setUnclaimed stands free
  | insertEntry idle absent => exact (known.idle _).insertEntry absent
  | addTo found here free => exact (known.idle _).addTo found here free
  | releasing idle found held first => exact known.releasing found held first
  | giveBack own found here held call_ =>
    refine (known.idle _).giveBack found here held (fun c' other claimed => other (known.sole c' _ _ claimed own)) ?_
    exact call_.imp_left And.left
  | remove own unowned =>
    exact (known.idle _).remove unowned fun c' other claimed => other (known.sole c' _ _ claimed own)

theorem Effect.attended (effect : Effect fresh s s') (known : Consistent s) (attended : Attended s) : Attended s' := by
  cases effect with
  | move idle => exact attended.move idle
  | @insertEntry c k o request idle absent =>
    refine attended.setCall rfl fun k' h unowned => ?_
    obtain ⟨found, e, here, empty⟩ := unowned
    have before := (HashMap.lookup_insert_if _ _ _ _).symm.trans found
    split at before
    · rename_i same
      exact .inl (congrArg _ (congrArg _ same.symm))
    · obtain ⟨e', here', -⟩ := known.placed k' h before
      cases (entry_insertEntry k here').symm.trans here
      exact .inr ⟨⟨before, e, here', empty⟩, idle k'⟩
  | addTo found here _ only => exact attended.addTo found here only
  | releasing idle => exact attended.setCall rfl fun k _ unowned => .inr ⟨unowned, idle k⟩
  | giveBack own found here held call_ =>
    refine attended.giveBack known found here (fun k claimed => ?_) fun last => ?_
    · cases own.symm.trans claimed
    · rcases call_ with ⟨rfl, more⟩ | ⟨rfl, -⟩
      · exact absurd last more
      · rfl
  | @remove c k h own unowned =>
    refine attended.setCall rfl fun k' h' unowned' => ?_
    obtain ⟨found, rest⟩ := unowned'
    have before := (HashMap.lookup_erase_if _ _ _).symm.trans found
    split at before
    · cases before
    rename_i other
    refine .inr ⟨⟨before, rest⟩, fun claimed => ?_⟩
    cases own.symm.trans claimed
    exact other rfl

/-- Every key with current owners has an entry, every entry has exactly the current owners of its key, and an entry
without owners is one that a single call is about to finish. -/
def OwnersExact (s : State C K O V LoadArgs) : Prop :=
  (∀ k, s.currentOwners k ≠ ∅ → ∃ h, s.entries.lookup k = some h) ∧
    ∀ k h, s.entries.lookup k = some h → ∃ e, s.entry h = some e ∧ e.owners = s.currentOwners k ∧
      (e.owners = ∅ → ∃! c, claim (s.calls c) = some (.inl k))

/-- The owners of a key hold the value of its entry, and so the same one. -/
def SameValue (s : State C K O V LoadArgs) : Prop :=
  ∀ r ∈ s.held, ∀ h e, s.entries.lookup r.identity = some h → s.entry h = some e → r.value = e.value

omit [DecidableEq C] [Inhabited V] in
theorem Consistent.ownersExact (known : Consistent s) (attended : Attended s) : s.OwnersExact := by
  refine ⟨fun k owned => ?_, fun k h found => ?_⟩
  · cases found : s.entries.lookup k with
    | none => exact absurd (known.present k found) owned
    | some h => exact ⟨h, rfl⟩
  · obtain ⟨e, here, exact_⟩ := known.placed k h found
    refine ⟨e, here, exact_, fun empty => ?_⟩
    obtain ⟨c, claimed⟩ := attended k h ⟨found, e, here, empty⟩
    exact ⟨c, claimed, fun c' claimed' => known.sole c' c _ claimed' claimed⟩

omit [DecidableEq C] in
theorem SameValue.insertEntry (same : s.SameValue) (known : Consistent s) (absent : s.entries.lookup k = none) :
    (s.insertEntry k).SameValue := by
  intro r listed h e found here
  have before := (HashMap.lookup_insert_if _ _ _ _).symm.trans found
  split at before
  · rename_i own
    have owner : r.owner ∈ s.currentOwners k := mem_currentOwners.mpr ⟨r, listed, own, rfl⟩
    rw [known.present k absent] at owner
    exact absurd owner (Finset.notMem_empty _)
  · obtain ⟨e', here', -⟩ := known.placed _ h before
    cases (entry_insertEntry k here').symm.trans here
    exact same r listed h e before here'

omit [Inhabited V] in
theorem SameValue.addTo
    (same : s.SameValue) (known : Consistent s) (found : s.entries.lookup k = some h) (here : s.entry h = some e)
    (kept : e.value = value ∨ e.owners = ∅) : (s.addTo c k o h e value).SameValue := by
  intro r listed h' e' found' here'
  have old := (entry_setEntry here).symm.trans here'
  rcases List.mem_cons.mp listed with rfl | listed
  · cases found.symm.trans found'
    rw [if_pos rfl] at old
    cases old
    rfl
  split at old
  · rename_i equal
    subst equal
    cases old
    have own := known.injective r.identity k h' found' found
    rcases kept with value_ | empty
    · exact (same r listed h' e found' here).trans value_
    obtain ⟨e₁, here₁, exact_⟩ := known.placed k h' found
    cases here.symm.trans here₁
    have owner : r.owner ∈ s.currentOwners k := mem_currentOwners.mpr ⟨r, listed, own, rfl⟩
    rw [← exact_, empty] at owner
    exact absurd owner (Finset.notMem_empty _)
  · exact same r listed h' e' found' old

omit [DecidableEq C] [Inhabited V] in
theorem SameValue.giveBack (same : s.SameValue) (here : s.entry h = some e) :
    ((s.setEntry h { e with owners := e.owners.erase o }).giveBack k o).SameValue := by
  intro r listed h' e' found' here'
  have kept : r ∈ s.held := (List.mem_filter.mp listed).1
  have old := (entry_setEntry here).symm.trans here'
  split at old
  · rename_i equal
    subst equal
    cases old
    exact same r kept h' e found' here
  · exact same r kept h' e' found' old

omit [DecidableEq C] [DecidableEq O] [Inhabited V] in
theorem SameValue.remove (same : s.SameValue) : SameValue { s with entries := s.entries.erase k } := by
  intro r listed h e found here
  have before := (HashMap.lookup_erase_if _ _ _).symm.trans found
  split at before
  · cases before
  · exact same r listed h e before here

theorem Effect.sameValue (effect : Effect fresh s s') (known : Consistent s) (same : s.SameValue) (holds : fresh) :
    s'.SameValue := by
  cases effect with
  | move => exact same
  | insertEntry idle absent => exact same.insertEntry known absent
  | addTo found here _ _ kept => exact same.addTo known found here (kept holds)
  | releasing => exact same
  | giveBack own found here => exact same.giveBack here
  | remove => exact same.remove

omit [DecidableEq C] [Inhabited V] in
theorem consistent_newOwnerCache : Consistent (newOwnerCache : State C K O V LoadArgs) where
  placed _ _ found := by simp [newOwnerCache] at found
  injective _ _ _ found := by simp [newOwnerCache] at found
  present _ _ := rfl
  live _ _ here := by simp [newOwnerCache, State.entry] at here
  sole _ _ _ claimed := nomatch claimed
  standing _ := trivial

omit [DecidableEq C] [DecidableEq O] [Inhabited V] in
theorem attended_newOwnerCache : Attended (newOwnerCache : State C K O V LoadArgs) := by
  rintro k h ⟨found, -⟩
  simp [newOwnerCache] at found

/-- In every run in which no call adds its owner to an entry that has just lost its last one, the owner sets are
exact; and the owners of a key hold the same value if no value expires while it has owners. -/
theorem owners_exact_in_runs (isExpired : Option (K → V → LoadArgs → Bool)) :
    (∀ s : State C K O V LoadArgs, Reaches (step isExpired) Permitted newOwnerCache s → s.OwnersExact) ∧
      ∀ s : State C K O V LoadArgs,
        Reaches (step isExpired) (fun s a => s.Permitted a ∧ s.Fresh isExpired a) newOwnerCache s →
        s.OwnersExact ∧ s.SameValue := by
  refine ⟨fun s run => ?_, fun s run => ?_⟩
  · have known := run.keeps (fun s => Consistent s ∧ Attended s) ⟨consistent_newOwnerCache, attended_newOwnerCache⟩
      fun _ _ _ known allowed taken =>
        have effect := known.1.effect allowed taken
        ⟨effect.consistent known.1, effect.attended known.1 known.2⟩
    exact known.1.ownersExact known.2
  have known := run.keeps (fun s => (Consistent s ∧ Attended s) ∧ SameValue s)
    ⟨⟨consistent_newOwnerCache, attended_newOwnerCache⟩, nofun⟩ fun _ _ _ known allowed taken =>
      have effect := known.1.1.effect allowed.1 taken
      ⟨⟨effect.consistent known.1.1, effect.attended known.1.1 known.1.2⟩,
        effect.sameValue known.1.1 known.2 allowed.2⟩
  exact ⟨known.1.1.ownersExact known.1.2, known.2⟩

/-- Two owners of one key, and a release of the first. -/
theorem owners_exact_shared : ∃ s : State Bool Unit Nat Nat Unit, s.currentOwners () = {2} ∧
    s.OwnersExact ∧ s.SameValue := by
  have allowed : Allowed (step none) (fun s a => s.Permitted a ∧ s.Fresh none a)
      (newOwnerCache : State Bool Unit Nat Nat Unit)
      [.load false () 1 (.loadAndAcquire () fun _ _ => 7), .proceed false, .proceed false, .addOwner true () 2,
        .proceed true, .release false () 1, .proceed false] := by
    refine ⟨⟨trivial, trivial⟩, fun _ first => ?_⟩
    cases first
    refine ⟨⟨trivial, trivial⟩, fun _ second => ?_⟩
    cases second
    refine ⟨⟨trivial, trivial⟩, fun _ third => ?_⟩
    cases third
    refine ⟨⟨trivial, trivial⟩, fun _ fourth => ?_⟩
    cases fourth
    refine ⟨⟨trivial, trivial⟩, fun _ fifth => ?_⟩
    cases fifth
    refine ⟨⟨trivial, trivial⟩, fun _ sixth => ?_⟩
    cases sixth
    exact ⟨⟨trivial, trivial⟩, fun _ _ => trivial⟩
  refine ⟨_, ?_, (owners_exact_in_runs none).2 _ (reaches_of_allowed allowed rfl)⟩
  rfl

/-- An entry is in the table before its first owner is, and an owner keeps a value that has expired for another. -/
theorem unowned_and_expired :
    (∃ s : State Bool Unit Nat Nat Unit, Reaches (step none) (fun _ _ => True) newOwnerCache s ∧
      s.entries.lookup () = some 0 ∧ s.currentOwners () = ∅) ∧
    ∃ s : State Bool Unit Nat Nat Unit,
      Reaches (step (some fun _ _ _ => true)) (fun _ _ => True) newOwnerCache s ∧
      s.held = [⟨(), 2, 8⟩, ⟨(), 1, 7⟩] := by
  have early : ∃ s, steps (step none) (newOwnerCache : State Bool Unit Nat Nat Unit)
      [.load false () 1 (.loadAndAcquire () fun _ _ => 7), .proceed false] = some s ∧
      s.entries.lookup () = some 0 ∧ s.currentOwners () = ∅ := ⟨_, rfl, rfl, rfl⟩
  have late : ∃ s, steps (step (some fun _ _ _ => true)) (newOwnerCache : State Bool Unit Nat Nat Unit)
      [.load false () 1 (.loadAndAcquire () fun _ _ => 7), .proceed false, .proceed false,
        .load true () 2 (.loadAndAcquire () fun _ _ => 8), .proceed true, .proceed true, .proceed true] = some s ∧
      s.held = [⟨(), 2, 8⟩, ⟨(), 1, 7⟩] := ⟨_, rfl, rfl⟩
  obtain ⟨s, taken, found, owners⟩ := early
  obtain ⟨t, taken', held⟩ := late
  exact ⟨⟨s, reaches_of_steps taken, found, owners⟩, t, reaches_of_steps taken', held⟩

end State

end TypeScriptRs.Project.OwnerCache
