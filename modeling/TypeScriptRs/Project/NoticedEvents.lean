import TypeScriptRs.Project.Folding

/-! What the reduction of a file's events keeps of saves and reports. -/
namespace TypeScriptRs.Project
open Machine List

/-- What is left of the creations and deletions reported once one after the other has cancelled it. -/
inductive Standing where
  | nothing | creation | deletion
  deriving DecidableEq

def Standing.after : Standing → FileChangeKind → Standing
  | .deletion, .watchCreate => .nothing
  | _, .watchCreate => .creation
  | .creation, .watchDelete => .nothing
  | _, .watchDelete => .deletion
  | standing, _ => standing

def standing (changes : List FileChange) : Standing := changes.foldl (fun standing change => standing.after change.kind) .nothing

theorem standing_snoc (changes : List FileChange) (change : FileChange) :
    standing (changes ++ [change]) = (standing changes).after change.kind := foldl_concat _ _ _ _

/-- A change that no creation hides, or a creation that answers a deletion. -/
def Noticed (before : List FileChange) (change : FileChange) : Prop :=
  change.kind = .watchChange ∧ standing before ≠ .creation ∨ change.kind = .watchCreate ∧ standing before = .deletion

/-- After a change or a deletion the earlier reports of the disk no longer count. -/
def Forgets (change : FileChange) : Prop := change.kind = .change ∨ change.kind = .watchDelete

/-- A report of the disk is noticed, and not forgotten afterwards. -/
def Looks (changes : List FileChange) : Prop :=
  ∃ before change after, changes = before ++ change :: after ∧ Noticed before change ∧ ∀ later ∈ after, ¬ Forgets later

/-- After a save the file was changed by the editor, deleted, or changed by someone else without a creation that hides it. -/
def Outdates (before : List FileChange) (save : FileChange) (after : List FileChange) : Prop :=
  (∃ later ∈ after, Forgets later) ∨
    ∃ first change last, after = first ++ change :: last ∧ change.kind = .watchChange ∧ standing (before ++ save :: first) ≠ .creation

def InForce (changes : List FileChange) : Prop :=
  ∃ before save after, changes = before ++ save :: after ∧ save.kind = .save ∧ ¬ Outdates before save after

theorem snoc_eq_append_cons {α : Type} {xs before after : List α} {a b : α} :
    xs ++ [a] = before ++ b :: after ↔ (xs = before ∧ a = b ∧ after = []) ∨ ∃ rest, after = rest ++ [a] ∧ xs = before ++ b :: rest := by
  constructor
  · intro shape
    rcases eq_nil_or_concat after with rfl | ⟨rest, last, rfl⟩
    · obtain ⟨same, last⟩ := append_inj' shape rfl
      exact .inl ⟨same, singleton_inj.mp last, rfl⟩
    · rw [concat_eq_append, ← cons_append, ← append_assoc] at shape
      obtain ⟨same, last⟩ := append_inj' shape rfl
      rw [concat_eq_append, singleton_inj.mp last]
      exact .inr ⟨rest, rfl, same⟩
  · rintro (⟨rfl, rfl, rfl⟩ | ⟨rest, rfl, rfl⟩)
    · rfl
    · simp

theorem looks_snoc (changes : List FileChange) (change : FileChange) :
    Looks (changes ++ [change]) ↔ Noticed changes change ∨ (¬ Forgets change ∧ Looks changes) := by
  constructor
  · rintro ⟨before, seen, after, shape, noticed, kept⟩
    rcases snoc_eq_append_cons.mp shape with ⟨rfl, rfl, rfl⟩ | ⟨rest, rfl, rfl⟩
    · exact .inl noticed
    · exact .inr ⟨kept change (by simp), before, seen, rest, rfl, noticed, fun later member => kept later (by simp [member])⟩
  rintro (noticed | ⟨kept, before, seen, after, rfl, noticed, kept'⟩)
  · exact ⟨changes, change, [], rfl, noticed, by simp⟩
  · refine ⟨before, seen, after ++ [change], by simp, noticed, fun later member => ?_⟩
    rcases mem_append.mp member with inside | last
    · exact kept' later inside
    · rwa [mem_singleton.mp last]

theorem outdates_snoc (before : List FileChange) (save : FileChange) (after : List FileChange) (change : FileChange) :
    Outdates before save (after ++ [change]) ↔
      Outdates before save after ∨ Forgets change ∨ (change.kind = .watchChange ∧ standing (before ++ save :: after) ≠ .creation) := by
  constructor
  · rintro (⟨later, member, forgets⟩ | ⟨first, changed, last, shape, kind, open_⟩)
    · rcases mem_append.mp member with inside | last
      · exact .inl (.inl ⟨later, inside, forgets⟩)
      · exact .inr (.inl (mem_singleton.mp last ▸ forgets))
    · rcases snoc_eq_append_cons.mp shape with ⟨rfl, rfl, rfl⟩ | ⟨rest, rfl, rfl⟩
      · exact .inr (.inr ⟨kind, open_⟩)
      · exact .inl (.inr ⟨first, changed, rest, rfl, kind, open_⟩)
  · rintro ((⟨later, member, forgets⟩ | ⟨first, changed, last, rfl, kind, open_⟩) | forgets | ⟨kind, open_⟩)
    · exact .inl ⟨later, mem_append_left _ member, forgets⟩
    · exact .inr ⟨first, changed, last ++ [change], by simp, kind, open_⟩
    · exact .inl ⟨change, by simp, forgets⟩
    · exact .inr ⟨after, change, [], rfl, kind, open_⟩

theorem inForce_snoc (changes : List FileChange) (change : FileChange) : InForce (changes ++ [change]) ↔ change.kind = .save ∨
      (InForce changes ∧ ¬ Forgets change ∧ (change.kind = .watchChange → standing changes = .creation)) := by
  constructor
  · rintro ⟨before, save, after, shape, kind, current⟩
    rcases snoc_eq_append_cons.mp shape with ⟨rfl, rfl, rfl⟩ | ⟨rest, rfl, rfl⟩
    · exact .inl kind
    · rw [outdates_snoc, not_or, not_or] at current
      exact .inr ⟨⟨before, save, rest, rfl, kind, current.1⟩, current.2.1, fun watch => by_contra fun open_ => current.2.2 ⟨watch, open_⟩⟩
  rintro (kind | ⟨⟨before, save, after, rfl, kind, current⟩, kept, hidden⟩)
  · exact ⟨changes, change, [], rfl, kind, by rintro (⟨later, member, -⟩ | ⟨first, changed, last, shape, -⟩) <;> simp_all⟩
  refine ⟨before, save, after ++ [change], by simp, kind, ?_⟩
  rw [outdates_snoc]
  rintro (outdated | forgets | ⟨watch, open_⟩)
  · exact current outdated
  · exact kept forgets
  · exact open_ (hidden watch)

def StaysOpen (changes : List FileChange) : Prop := ∀ change ∈ changes, change.kind ≠ .open_ ∧ change.kind ≠ .close

/-- What the events of a file that stays open say of its changes. -/
structure Reduces (done : List FileChange) (events : FileEvents) : Prop where
  openChange : events.openChange = none
  closeChange : events.closeChange = none
  changes : events.changes = done.filter (·.kind = .change)
  created : events.created = true ↔ standing done = .creation
  deleted : events.deleted = true ↔ standing done = .deletion
  saved : events.saved = true ↔ InForce done
  watchChanged : events.watchChanged = true ↔ Looks done

theorem reduces_nil : Reduces [] {} where
  openChange := rfl
  closeChange := rfl
  changes := rfl
  created := by decide
  deleted := by decide
  saved := iff_of_false Bool.false_ne_true (by rintro ⟨before, save, after, shape, -⟩; simp at shape)
  watchChanged := iff_of_false Bool.false_ne_true (by rintro ⟨before, seen, after, shape, -⟩; simp at shape)

variable {done : List FileChange} {events : FileEvents} {next : FileChange}

theorem Reduces.step (reduces : Reduces done events) (stays : next.kind ≠ .open_ ∧ next.kind ≠ .close) :
    ∃ events', events.add next = .ok events' ∧ Reduces (done ++ [next]) events' := by
  have created : events.created = decide (standing done = .creation) := by
    rw [Bool.eq_iff_iff, reduces.created, decide_eq_true_iff]
  have deleted : events.deleted = decide (standing done = .deletion) := by
    rw [Bool.eq_iff_iff, reduces.deleted, decide_eq_true_iff]
  have saved := inForce_snoc done next
  have looks := looks_snoc done next
  rw [← reduces.saved] at saved
  rw [← reduces.watchChanged] at looks
  have now := standing_snoc done next
  unfold FileEvents.add
  -- The events change by a table: what is reported, and what is left of the earlier reports.
  cases kind : next.kind with
  | open_ => exact absurd kind stays.1
  | close => exact absurd kind stays.2
  | change | save | watchCreate | watchChange | watchDelete =>
    cases before : standing done with
    | nothing | creation | deletion =>
      simp only [kind, before, Standing.after] at now
      simp only [reduces.openChange, reduces.closeChange, created, deleted, before]
      refine ⟨_, rfl, ?_⟩
      constructor
      all_goals
        simp [reduces.openChange, reduces.closeChange, reduces.changes, created, deleted, saved, looks, now, before,
          kind, Forgets, Noticed]

theorem reduces_of_staysOpen {changes : List FileChange} (stays : StaysOpen changes) :
    ∃ events, changes.foldlM FileEvents.add {} = .ok events ∧ Reduces changes events := by
  obtain ⟨events, folded, reduces⟩ := foldlM_done (P := Reduces) changes
    (fun done events next member reduces => reduces.step (stays next member)) [] {} reduces_nil
  exact ⟨events, folded, reduces⟩

theorem open_of_add {events' : FileEvents} (added : events.add next = .ok events') (unopened : events'.openChange = none)
    (unclosed : events'.closeChange = none) :
    events.openChange = none ∧ events.closeChange = none ∧ next.kind ≠ .open_ ∧ next.kind ≠ .close := by
  unfold FileEvents.add at added
  split at added
  · cases added
  rename_i fresh
  have fresh : events.openChange = none := by simpa using fresh
  cases kind : next.kind with
  | open_ =>
    rw [kind] at added
    cases added
    cases unopened
  | close =>
    rw [kind] at added
    cases added
    cases unclosed
  | change | save | watchCreate | watchChange | watchDelete =>
    rw [kind] at added
    dsimp only at added
    repeat' split at added
    all_goals cases added
    all_goals exact ⟨fresh, unclosed, by decide, by decide⟩

theorem staysOpen_of_folded {changes : List FileChange} (folded : changes.foldlM FileEvents.add {} = .ok events)
    (unopened : events.openChange = none) (unclosed : events.closeChange = none) : StaysOpen changes := by
  induction changes using List.reverseRecOn generalizing events with
  | nil =>
    intro change member
    cases member
  | append_singleton changes change ih =>
    rw [foldlM_append] at folded
    obtain ⟨between, earlier, last⟩ := Outcome.bind_eq_ok folded
    obtain ⟨events', added, rest⟩ := Outcome.bind_eq_ok last
    cases rest
    obtain ⟨unopened', unclosed', stays⟩ := open_of_add added unopened unclosed
    intro c member
    rcases mem_append.mp member with before | here
    · exact ih earlier unopened' unclosed' c before
    · rwa [mem_singleton.mp here]

end TypeScriptRs.Project
