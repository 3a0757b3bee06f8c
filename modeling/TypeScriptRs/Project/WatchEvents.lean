import TypeScriptRs.Project.Folding

/-! What a batch reports of a file that is not open. -/
namespace TypeScriptRs.Project
open Machine List

section
/-- A sequence of watch events leads from whether a file exists to whether it exists. -/
inductive Leads : Bool → List FileChangeKind → Bool → Prop
  | nil (exists_ : Bool) : Leads exists_ [] exists_
  | create {kinds : List FileChangeKind} {exists_ : Bool} : Leads true kinds exists_ → Leads false (.watchCreate :: kinds) exists_
  | change {kinds : List FileChangeKind} {exists_ : Bool} : Leads true kinds exists_ → Leads true (.watchChange :: kinds) exists_
  | delete {kinds : List FileChangeKind} {exists_ : Bool} : Leads false kinds exists_ → Leads true (.watchDelete :: kinds) exists_

structure Watched (events : FileEvents) : Prop where
  openChange : events.openChange = none
  closeChange : events.closeChange = none
  changes : events.changes = []
  saved : events.saved = false

/-- The events tell what became of a file that existed or not before them. -/
structure Tells (existed seen exists_ : Bool) (events : FileEvents) : Prop extends Watched events where
  created : events.created = (!existed && exists_)
  deleted : events.deleted = (existed && !exists_)
  watchChanged : events.watchChanged = (existed && exists_ && seen)

theorem watched_empty : Watched {} := ⟨rfl, rfl, rfl, rfl⟩

theorem tells_empty (exists_ : Bool) : Tells exists_ false exists_ {} where
  toWatched := watched_empty
  created := by cases exists_ <;> rfl
  deleted := by cases exists_ <;> rfl
  watchChanged := by cases exists_ <;> rfl

variable {events : FileEvents} {existed seen exists_ : Bool}

theorem Watched.add (watched : Watched events) {change : FileChange} (watch : change.kind.isWatchKind = true) :
    ∃ events', events.add change = .ok events' ∧ Watched events' := by
  have unopened := watched.openChange
  unfold FileEvents.add
  rw [unopened]
  cases kind : change.kind with
  | watchCreate =>
    cases events.deleted with
    | true => exact ⟨_, rfl, rfl, watched.closeChange, watched.changes, watched.saved⟩
    | false => exact ⟨_, rfl, rfl, watched.closeChange, watched.changes, watched.saved⟩
  | watchChange =>
    cases events.created with
    | true => exact ⟨_, rfl, watched⟩
    | false => exact ⟨_, rfl, rfl, watched.closeChange, watched.changes, rfl⟩
  | watchDelete =>
    cases events.created with
    | true => exact ⟨_, rfl, rfl, watched.closeChange, watched.changes, rfl⟩
    | false => exact ⟨_, rfl, rfl, watched.closeChange, watched.changes, rfl⟩
  | open_ | close | change | save =>
    rw [kind] at watch
    cases watch

theorem Tells.add {now : Bool} (tells : Tells existed seen now events) {change : FileChange} {kind : FileChangeKind}
    (kind_ : change.kind = kind) (leads : Leads now [kind] exists_) :
    ∃ events', events.add change = .ok events' ∧ Tells existed true exists_ events' := by
  have created := tells.created
  have deleted := tells.deleted
  have watchChanged := tells.watchChanged
  unfold FileEvents.add
  simp only [tells.openChange, kind_]
  cases leads with
  | create later | change later | delete later =>
    cases later
    cases existed with
    | true | false =>
      simp only [created, deleted]
      refine ⟨_, rfl, ⟨?_, tells.closeChange, tells.changes, ?_⟩, ?_, ?_, ?_⟩
      all_goals simp [tells.openChange, tells.saved, created, deleted, watchChanged]

theorem Tells.cons {between : FileEvents} {change : FileChange} {changes : List FileChange} (added : events.add change = .ok between)
    (later : ∃ events', changes.foldlM FileEvents.add between = .ok events' ∧ Tells existed (true || changes ≠ []) exists_ events') :
    ∃ events', (change :: changes).foldlM FileEvents.add events = .ok events' ∧
      Tells existed (seen || change :: changes ≠ []) exists_ events' := by
  obtain ⟨events', folded, told⟩ := later
  rw [foldlM_cons, added]
  exact ⟨events', folded, by simpa using told⟩

theorem Tells.run {now : Bool} {kinds : List FileChangeKind} (leads : Leads now kinds exists_) {changes : List FileChange}
    (reported : changes.map FileChange.kind = kinds) (tells : Tells existed seen now events) :
    ∃ events', changes.foldlM FileEvents.add events = .ok events' ∧ Tells existed (seen || changes ≠ []) exists_ events' := by
  induction leads generalizing changes seen events with
  | nil now =>
    obtain rfl := map_eq_nil_iff.mp reported
    exact ⟨events, rfl, by simpa using tells⟩
  | create later ih =>
    obtain ⟨change, changes, rfl, kind, rest⟩ := map_eq_cons_iff.mp reported
    obtain ⟨between, added, told⟩ := tells.add kind (.create (.nil _))
    exact Tells.cons added (ih rest told)
  | change later ih =>
    obtain ⟨change, changes, rfl, kind, rest⟩ := map_eq_cons_iff.mp reported
    obtain ⟨between, added, told⟩ := tells.add kind (.change (.nil _))
    exact Tells.cons added (ih rest told)
  | delete later ih =>
    obtain ⟨change, changes, rfl, kind, rest⟩ := map_eq_cons_iff.mp reported
    obtain ⟨between, added, told⟩ := tells.add kind (.delete (.nil _))
    exact Tells.cons added (ih rest told)
end

section
variable {host : Host} {uri : DocumentUri} {events : FileEvents} {s s' : FileChangeSummary × Overlays}
variable {changed created deleted : Bool}

theorem processFile_watched (watched : Watched events) : processFile host s uri events =
    .ok (let t := if events.watchChanged then
        Turn.watchChanged host ⟨s.1, s.2, s.2.lookup (host.path uri)⟩ uri events.saved else ⟨s.1, s.2, s.2.lookup (host.path uri)⟩
      (t.noted uri events.created events.deleted, t.newOverlays)) := by
  unfold processFile
  simp only [watched.openChange, watched.closeChange, watched.changes, watched.saved]
  rfl

theorem processFile_closed (watched : Watched events) (closed : s.2.lookup (host.path uri) = none)
    (processed : processFile host s uri events = .ok s') :
    s'.2 = s.2 ∧ (uri ∈ s'.1.changed ↔ uri ∈ s.1.changed ∨ events.watchChanged = true) ∧
      (uri ∈ s'.1.created ↔ uri ∈ s.1.created ∨ events.created = true) ∧
      (uri ∈ s'.1.deleted ↔ uri ∈ s.1.deleted ∨ events.deleted = true) := by
  rw [processFile_watched watched, closed] at processed
  cases processed
  cases events.watchChanged <;> cases events.created <;> cases events.deleted <;> simp [Turn.watchChanged, Turn.noted]

/-- A batch reports what became of a file that existed or not before it. -/
structure Reports (uri : DocumentUri) (existed exists_ : Bool) (changes : List FileChange) (summary : FileChangeSummary) : Prop where
  created : uri ∈ summary.created ↔ existed = false ∧ exists_ = true
  deleted : uri ∈ summary.deleted ↔ existed = true ∧ exists_ = false
  changed : uri ∈ summary.changed ↔ existed = true ∧ exists_ = true ∧ ownChanges uri changes ≠ []

/-- The summary and the overlays while the files are processed: the file is not open, and as noted or not yet. -/
structure Noting (host : Host) (uri : DocumentUri) (changed created deleted : Bool) (s : FileChangeSummary × Overlays) : Prop where
  closed : s.2.lookup (host.path uri) = none
  changed : uri ∈ s.1.changed ↔ changed = true
  created : uri ∈ s.1.created ↔ created = true
  deleted : uri ∈ s.1.deleted ↔ deleted = true

theorem Noting.other {v : DocumentUri} (noting : Noting host uri changed created deleted s) (other : v ≠ uri)
    (watched : host.path v = host.path uri → Watched events) (processed : processFile host s v events = .ok s') :
    Noting host uri changed created deleted s' := by
  have spared := processFile_spares processed
  refine ⟨?_, (spared.changed uri other.symm).trans noting.changed, (spared.created uri other.symm).trans noting.created,
    (spared.deleted uri other.symm).trans noting.deleted⟩
  by_cases same : host.path v = host.path uri
  · rw [(processFile_closed (watched same) (same ▸ noting.closed) processed).1]
    exact noting.closed
  · rw [spared.overlays _ fun same' => same same'.symm]
    exact noting.closed

theorem Noting.others {eventsOf : DocumentUri → FileEvents} {list : List DocumentUri}
    (watched : ∀ v, host.path v = host.path uri → Watched (eventsOf v)) (apart : uri ∉ list)
    (noting : Noting host uri changed created deleted s)
    (ran : list.foldlM (fun s v => processFile host s v (eventsOf v)) s = .ok s') : Noting host uri changed created deleted s' := by
  induction list generalizing s with
  | nil =>
    cases ran
    exact noting
  | cons v list ih =>
    rw [foldlM_cons] at ran
    obtain ⟨between, first, later⟩ := Outcome.bind_eq_ok ran
    rw [mem_cons, not_or] at apart
    exact ih apart.2 (noting.other (Ne.symm apart.1) (watched v) first) later
end

variable {host : Host} {order : FileEventMap → List DocumentUri} {overlays final : Overlays} {changes : List FileChange}
  {uri : DocumentUri} {summary : FileChangeSummary}

theorem watched_ownChanges {v : DocumentUri} (watch : ∀ c ∈ ownChanges v changes, c.kind.isWatchKind = true) {events events' : FileEvents}
    (watched : Watched events) (folded : (ownChanges v changes).foldlM FileEvents.add events = .ok events') : Watched events' := by
  generalize ownChanges v changes = own at watch folded
  induction own generalizing events with
  | nil =>
    cases folded
    exact watched
  | cons change own ih =>
    rw [foldlM_cons] at folded
    obtain ⟨between, added, watched'⟩ := watched.add (watch change mem_cons_self)
    rw [added] at folded
    exact ih watched' (fun c member => watch c (mem_cons_of_mem change member)) folded

theorem reports_of_returned (lists : ∀ m, HashMap.Enumerates (order m) m) {existed exists_ : Bool}
    (closed : overlays.lookup (host.path uri) = none)
    (watch : ∀ c ∈ changes, host.path c.uri = host.path uri → c.kind.isWatchKind = true)
    (consistent : Leads existed ((ownChanges uri changes).map FileChange.kind) exists_)
    (returned : processChanges host order overlays changes = .ok (summary, final)) : Reports uri existed exists_ changes summary := by
  obtain ⟨folded, adding, processing⟩ := Outcome.bind_eq_ok returned
  obtain ⟨result, fileEventMap⟩ := folded
  have empty : result.changed = ∅ ∧ result.created = ∅ ∧ result.deleted = ∅ := addChanges_summary adding
  have start : Noting host uri false false false (result, overlays) := by
    refine ⟨closed, ?_, ?_, ?_⟩
    · simp [empty.1]
    · simp [empty.2.1]
    · simp [empty.2.2]
  obtain ⟨distinct, listed⟩ := lists fileEventMap
  have watched : ∀ v, host.path v = host.path uri → Watched ((fileEventMap.lookup v).getD {}) := by
    intro v same
    refine watched_ownChanges (fun c member => ?_) watched_empty (addChanges_own adding v).1
    obtain ⟨inside, named⟩ := mem_filter.mp member
    exact watch c inside (by rw [of_decide_eq_true named, same])
  obtain ⟨events, folded, tells⟩ := (tells_empty existed).run consistent rfl
  obtain ⟨own, seen⟩ := addChanges_own adding uri
  rw [show (Finmap.lookup uri (∅ : FileEventMap)).getD {} = {} from rfl, folded, Outcome.ok.injEq] at own
  have some_ : uri ∈ order fileEventMap ↔ ownChanges uri changes ≠ [] := by
    rw [listed, seen]
    exact or_iff_right Finmap.notMem_empty
  by_cases member : uri ∈ order fileEventMap
  · obtain ⟨before, after, s₁, s₂, apart, apart', first, second, third, -⟩ := processFiles_cut distinct member processing
    have known₁ := start.others watched apart first
    rw [← own] at second
    obtain ⟨same, changed, created, deleted⟩ := processFile_closed tells.toWatched known₁.closed second
    have known₂ : Noting host uri events.watchChanged events.created events.deleted s₂ := by
      refine ⟨same ▸ known₁.closed, changed.trans ?_, created.trans ?_, deleted.trans ?_⟩
      · simp [known₁.changed]
      · simp [known₁.created]
      · simp [known₁.deleted]
    have known := known₂.others watched apart' third
    refine ⟨known.created.trans ?_, known.deleted.trans ?_, known.changed.trans ?_⟩
    · simp [tells.created]
    · simp [tells.deleted]
    · simp [tells.watchChanged, some_.mp member]
  · have none_ : ownChanges uri changes = [] := not_not.mp fun some => member (some_.mpr some)
    have known := start.others watched member processing
    have unchanged : existed = exists_ := by
      rw [none_] at consistent
      cases consistent
      rfl
    subst unchanged
    refine ⟨known.created.trans ?_, known.deleted.trans ?_, known.changed.trans ?_⟩
    · cases existed <;> simp
    · cases existed <;> simp
    · simp [none_]

theorem processChanges_watched (watch : ∀ c ∈ changes, c.kind.isWatchKind = true) :
    ∃ result, processChanges host order overlays changes = .ok result := by
  have adds := @foldlM_done _ _ addChange
    (fun (_ : List FileChange) (s : FileChangeSummary × FileEventMap) => ∀ v, Watched ((s.2.lookup v).getD {})) changes
    (fun _ s change member watched => by
      obtain ⟨events, added, watched'⟩ := (watched change.uri).add (watch change member)
      refine ⟨_, by simp only [addChange, added]; rfl, fun v => ?_⟩
      rw [HashMap.lookup_insert_if]
      split
      · exact watched'
      · exact watched v) [] ({}, ∅) (fun v => watched_empty)
  obtain ⟨s, adding, watched⟩ := adds
  have processes := @foldlM_done _ _ (fun t v => processFile host t v ((s.2.lookup v).getD {})) (fun _ _ => True) (order s.2)
    (fun _ t v _ _ => ⟨_, processFile_watched (watched v), trivial⟩) [] (s.1, overlays) trivial
  obtain ⟨s', processing, -⟩ := processes
  refine ⟨s', ?_⟩
  unfold processChanges
  rw [adding]
  exact processing

/-- The watch events of a file that is not open are reduced to what became of it over the batch. -/
theorem watchEvents_reported (lists : ∀ m, HashMap.Enumerates (order m) m) {existed exists_ : Bool}
    (closed : overlays.lookup (host.path uri) = none)
    (watch : ∀ c ∈ changes, host.path c.uri = host.path uri → c.kind.isWatchKind = true)
    (consistent : Leads existed ((ownChanges uri changes).map FileChange.kind) exists_) :
    ((∀ c ∈ changes, c.kind.isWatchKind = true) → ∃ result, processChanges host order overlays changes = .ok result) ∧
      ∀ summary final, processChanges host order overlays changes = .ok (summary, final) →
        Reports uri existed exists_ changes summary :=
  ⟨processChanges_watched, fun _ _ => reports_of_returned lists closed watch consistent⟩

def watchEvent (kind : FileChangeKind) (uri : DocumentUri) : FileChange := ⟨kind, uri, 0, [], "", []⟩

theorem watchEvents_reported_replaced : ∃ (host : Host) (order : FileEventMap → List DocumentUri),
    ((∀ c ∈ [watchEvent .watchDelete "a.ts", watchEvent .watchCreate "a.ts"], c.kind.isWatchKind = true) →
      ∃ result, processChanges host order ∅ [watchEvent .watchDelete "a.ts", watchEvent .watchCreate "a.ts"] = .ok result) ∧
      ∀ summary final, processChanges host order ∅ [watchEvent .watchDelete "a.ts", watchEvent .watchCreate "a.ts"] = .ok (summary, final) →
        Reports "a.ts" true true [watchEvent .watchDelete "a.ts", watchEvent .watchCreate "a.ts"] summary := by
  choose order lists using fun m : FileEventMap => HashMap.exists_enumerates m
  refine ⟨⟨fun _ => 0, fun _ => none, id, id, .utf16⟩, order, ?_⟩
  refine watchEvents_reported lists (Finmap.lookup_empty _) ?_ (.delete (.create (.nil true)))
  intro c member _
  rcases mem_pair.mp member with rfl | rfl
  · rfl
  · rfl

end TypeScriptRs.Project
