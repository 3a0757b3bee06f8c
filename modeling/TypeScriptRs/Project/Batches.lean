import TypeScriptRs.Project.OverlayFs

/-! A batch of file changes against its changes one by one. -/
namespace TypeScriptRs.Project
open Machine Utf8 Lsconv List Outcome

variable (host : Host) {uri : DocumentUri} {events : FileEvents} {document current : Option Overlay}

def documentOf (overlay : Overlay) : Overlay :=
  newOverlay host overlay.fileName overlay.content overlay.version overlay.kind

def documents (overlays : Overlays) (p : Path) : Option Overlay := (overlays.lookup p).map (documentOf host)

def closeEffect (closed : Bool) (document : Option Overlay) : Outcome (Option Overlay) :=
  if closed then
    if document.isNone then .panic "overlay not found for closed file" else .ok none
  else .ok document

def changesEffect (changes : List FileChange) (document : Option Overlay) : Outcome (Option Overlay) :=
  if changes ≠ [] then
    match document with
    | none => .panic "overlay not found for changed file"
    | some current => changes.foldlM (applyChange host) current >>= fun current => .ok (some current)
  else .ok document

def savedEffect (saved : Bool) (document : Option Overlay) : Outcome (Option Overlay) :=
  if saved ∧ document.isNone then .panic "overlay not found for saved file" else .ok document

def fileEffect (uri : DocumentUri) (events : FileEvents) (document : Option Overlay) : Outcome (Option Overlay) :=
  match events.openChange with
  | some openChange =>
    .ok (newOverlay host (host.fileName uri) openChange.content openChange.version
      (languageKindToScriptKind openChange.languageKind))
  | none => do
    let document ← closeEffect events.closeChange.isSome document
    let document ← changesEffect host events.changes document
    savedEffect events.saved document

variable {host}

theorem applyTextChange_document (version : Int) (current : Overlay)
    (textChange : TextDocumentContentChangePartialOrWholeDocument) :
    applyTextChange host version (documentOf host current) textChange =
      applyTextChange host version current textChange >>= fun overlay => .ok (documentOf host overlay) := by
  unfold applyTextChange
  cases textChange.partialChange with
  | none =>
    cases textChange.wholeDocument with
    | none => rfl
    | some text => rfl
  | some change =>
    simp only [documentOf, bind_assoc]
    rfl

theorem foldlM_document {α : Type} (turn : Overlay → α → Outcome Overlay)
    (each : ∀ current a, turn (documentOf host current) a = turn current a >>= fun overlay => .ok (documentOf host overlay))
    (list : List α) (current : Overlay) :
    list.foldlM turn (documentOf host current) = list.foldlM turn current >>= fun overlay => .ok (documentOf host overlay) := by
  induction list generalizing current with
  | nil => rfl
  | cons a list ih =>
    rw [foldlM_cons, foldlM_cons, each, bind_assoc, bind_assoc]
    congr 1
    funext next
    exact ih next

theorem applyChange_document (current : Overlay) (change : FileChange) :
    applyChange host (documentOf host current) change = applyChange host current change >>= fun overlay => .ok (documentOf host overlay) := by
  unfold applyChange
  rw [foldlM_document _ (applyTextChange_document change.version), bind_assoc, bind_assoc]
  split
  · rfl
  · rfl

theorem changesEffect_append (changes : List FileChange) (change : FileChange) (document : Option Overlay) :
    changesEffect host (changes ++ [change]) document =
      changesEffect host changes document >>= changesEffect host [change] := by
  cases changes with
  | nil => rfl
  | cons first changes =>
    have filled : first :: changes ++ [change] ≠ [] := cons_ne_nil _ _
    cases document with
    | none => rfl
    | some current =>
      simp only [changesEffect, if_pos filled, if_pos (cons_ne_nil first changes), foldlM_append, bind_assoc]
      congr 1

theorem changesEffect_single (change : FileChange) (current : Overlay) :
    changesEffect host [change] (some current) = applyChange host current change >>= fun after => .ok (some after) := by
  simp only [changesEffect, foldlM_cons, foldlM_nil]
  cases applyChange host current change <;> rfl

section
variable (now : fileEffect host uri events document = .ok current) (unopened : events.openChange = none)
include now unopened

theorem stages_of_fileEffect :
    ∃ kept, closeEffect events.closeChange.isSome document = .ok kept ∧ changesEffect host events.changes kept = .ok current := by
  unfold fileEffect at now
  simp only [unopened] at now
  obtain ⟨kept, closed, rest⟩ := bind_eq_ok now
  obtain ⟨changed, changes, last⟩ := bind_eq_ok rest
  unfold savedEffect at last
  split at last
  · cases last
  · cases last
    exact ⟨kept, closed, changes⟩

theorem not_closed (present : current.isSome = true) :
    events.closeChange = none ∧ changesEffect host events.changes document = .ok current ∧ document.isSome = true := by
  obtain ⟨kept, closed, changes⟩ := stages_of_fileEffect now unopened
  unfold closeEffect at closed
  have kept_some : kept.isSome = true := by
    unfold changesEffect at changes
    split at changes
    · cases kept with
      | none => cases changes
      | some overlay => rfl
    · cases changes
      exact present
  split at closed
  · split at closed
    · cases closed
    · cases closed
      cases kept_some
  · rename_i open_
    cases closed
    exact ⟨by simpa using open_, changes, kept_some⟩
end

theorem fileEffect_watch (unopened : events.openChange = none)
    (unclosed : events.closeChange = none) (unchanged : events.changes = []) (unsaved : events.saved = false)
    (document : Option Overlay) : fileEffect host uri events document = .ok document := by
  simp only [fileEffect, unopened, unclosed, unchanged, unsaved]
  rfl

section
variable (now : fileEffect host uri events document = .ok current) (unopened : events.openChange = none)
include now unopened

theorem fileEffect_unsaved {events' : FileEvents}
    (unopened' : events'.openChange = none) (closed : events'.closeChange = events.closeChange)
    (changes : events'.changes = events.changes)
    (saved : events'.saved = true → events.saved = true ∨ current.isSome = true) :
    fileEffect host uri events' document = .ok current := by
  obtain ⟨kept, first, second⟩ := stages_of_fileEffect now unopened
  simp only [fileEffect, unopened', closed, changes]
  rw [first]
  change (changesEffect host events.changes kept >>= savedEffect events'.saved) = .ok current
  rw [second]
  change savedEffect events'.saved current = .ok current
  unfold savedEffect
  split
  · rename_i lost
    rcases saved lost.1 with before | present
    · simp only [fileEffect, unopened] at now
      rw [first] at now
      change (changesEffect host events.changes kept >>= savedEffect events.saved) = .ok current at now
      rw [second] at now
      change savedEffect events.saved current = .ok current at now
      rw [savedEffect, if_pos ⟨before, lost.2⟩] at now
      cases now
    · rw [Option.isNone_iff_eq_none] at lost
      rw [lost.2] at present
      cases present
  · rfl

theorem fileEffect_add {change : FileChange}
    (correct : change.kind = .change ∨ change.kind = .save ∨ change.kind = .close → current.isSome = true) :
    ∃ events' single, events.add change = .ok events' ∧ ({} : FileEvents).add change = .ok single ∧
      fileEffect host uri events' document = fileEffect host uri single current := by
  have watch (events' single : FileEvents) (open' : events'.openChange = none)
      (closed : events'.closeChange = events.closeChange) (changes : events'.changes = events.changes)
      (saved : events'.saved = true → events.saved = true) (open₁ : single.openChange = none)
      (closed₁ : single.closeChange = none) (changes₁ : single.changes = []) (saved₁ : single.saved = false) :
      fileEffect host uri events' document = fileEffect host uri single current :=
    (fileEffect_unsaved now unopened open' closed changes fun after => .inl (saved after)).trans
      (fileEffect_watch open₁ closed₁ changes₁ saved₁ current).symm
  have unopened' : events.openChange.isSome = false := by rw [unopened]; rfl
  simp only [FileEvents.add, unopened', Bool.false_eq_true, if_false, Option.isSome_none]
  cases kind : change.kind with
  | open_ => exact ⟨_, _, rfl, rfl, rfl⟩
  | close =>
    obtain ⟨unclosed, -, present⟩ := not_closed now unopened (correct (.inr (.inr kind)))
    refine ⟨_, _, rfl, rfl, ?_⟩
    have here := correct (.inr (.inr kind))
    cases document with
    | none => cases present
    | some before =>
      cases current with
      | none => cases here
      | some after =>
        simp only [fileEffect, unopened]
        rfl
  | change =>
    obtain ⟨unclosed, changes, -⟩ := not_closed now unopened (correct (.inl kind))
    simp only [unclosed, Option.isSome_none, Bool.false_eq_true, if_false]
    refine ⟨_, _, rfl, rfl, ?_⟩
    simp only [fileEffect, unopened, nil_append]
    change (changesEffect host (events.changes ++ [change]) document >>= savedEffect false) =
      (changesEffect host [change] current >>= savedEffect false)
    rw [changesEffect_append, changes]
    rfl
  | save =>
    refine ⟨_, _, rfl, rfl, ?_⟩
    have here := correct (.inr (.inl kind))
    have kept : fileEffect host uri { events with saved := true } document = .ok current :=
      fileEffect_unsaved now unopened unopened rfl rfl fun _ => .inr here
    refine kept.trans ?_
    cases current with
    | none => cases here
    | some after => rfl
  | watchCreate =>
    cases deleted : events.deleted with
    | true => exact ⟨_, _, rfl, rfl, watch _ _ unopened rfl rfl id rfl rfl rfl rfl⟩
    | false => exact ⟨_, _, rfl, rfl, watch _ _ unopened rfl rfl id rfl rfl rfl rfl⟩
  | watchChange =>
    cases created : events.created with
    | true => exact ⟨_, _, rfl, rfl, watch _ _ unopened rfl rfl id rfl rfl rfl rfl⟩
    | false => exact ⟨_, _, rfl, rfl, watch _ _ unopened rfl rfl nofun rfl rfl rfl rfl⟩
  | watchDelete =>
    cases created : events.created with
    | true => exact ⟨_, _, rfl, rfl, watch _ _ unopened rfl rfl nofun rfl rfl rfl rfl⟩
    | false => exact ⟨_, _, rfl, rfl, watch _ _ unopened rfl rfl nofun rfl rfl rfl rfl⟩
end

section
theorem documents_insert (overlays : Overlays) (p q : Path) (overlay : Overlay) : documents host (overlays.insert p overlay) q =
      if q = p then some (documentOf host overlay) else documents host overlays q := by
  unfold documents
  rw [HashMap.lookup_insert_if]
  split
  · rfl
  · rfl

theorem documents_erase (overlays : Overlays) (p q : Path) :
    documents host (overlays.erase p) q = if q = p then none else documents host overlays q := by
  unfold documents
  rw [HashMap.lookup_erase_if]
  split
  · rfl
  · rfl

variable (host) in
/-- A turn on a file that has come to a document, and has left the other files and the opened ones alone. -/
structure Turned (uri : DocumentUri) (s : FileChangeSummary × Overlays) (t : Turn) (current : Option Overlay) : Prop where
  overlay : t.overlay.map (documentOf host) = current
  stored : documents host t.newOverlays (host.path uri) = current
  others : ∀ p, p ≠ host.path uri → documents host t.newOverlays p = documents host s.2 p
  opened : t.result.opened = s.1.opened
  reopened : t.result.reopened = s.1.reopened

variable {uri : DocumentUri} {s : FileChangeSummary × Overlays} {t : Turn} {current next : Option Overlay}

variable (host) in
theorem turned_start (uri : DocumentUri) (s : FileChangeSummary × Overlays) :
    Turned host uri s ⟨s.1, s.2, s.2.lookup (host.path uri)⟩ (documents host s.2 (host.path uri)) :=
  ⟨rfl, rfl, fun _ _ => rfl, rfl, rfl⟩

theorem Turned.store (known : Turned host uri s t current) {result : FileChangeSummary} {overlay stored : Overlay}
    (same : documentOf host stored = documentOf host overlay) (opened : result.opened = t.result.opened)
    (reopened : result.reopened = t.result.reopened) :
    Turned host uri s ⟨result, t.newOverlays.insert (host.path uri) stored, some overlay⟩
      (some (documentOf host overlay)) where
  overlay := rfl
  stored := by rw [documents_insert, if_pos rfl, same]
  others p other := by
    rw [documents_insert, if_neg other]
    exact known.others p other
  opened := opened.trans known.opened
  reopened := reopened.trans known.reopened

theorem Turned.close (known : Turned host uri s t current) (closed : closeEffect true current = .ok next) :
    ∃ t', t.close host uri = .ok t' ∧ Turned host uri s t' next := by
  have here := known.overlay
  cases overlay : t.overlay with
  | none =>
    rw [overlay] at here
    subst here
    cases closed
  | some existing =>
    rw [overlay] at here
    subst here
    cases closed
    simp only [Turn.close, overlay]
    refine ⟨_, rfl, rfl, ?_, fun p other => ?_, known.opened, known.reopened⟩
    · rw [documents_erase, if_pos rfl]
    · rw [documents_erase, if_neg other]
      exact known.others p other

theorem Turned.watchChanged (known : Turned host uri s t current) (saved : Bool) :
    Turned host uri s (t.watchChanged host uri saved) current := by
  have here := known.overlay
  cases overlay : t.overlay with
  | none =>
    simp only [Turn.watchChanged, overlay]
    exact ⟨overlay ▸ here, known.stored, known.others, known.opened, known.reopened⟩
  | some existing =>
    simp only [Turn.watchChanged, overlay]
    rw [overlay] at here
    subst here
    split
    · split
      · exact known.store rfl rfl rfl
      · exact known
    · exact known

theorem Turned.change {change : FileChange} {document after : Overlay} (known : Turned host uri s t (some document))
    (changed : applyChange host document change = .ok after) :
    ∃ t', t.change host uri change = .ok t' ∧ Turned host uri s t' (some after) := by
  obtain ⟨existing, overlay, rfl⟩ := Option.map_eq_some_iff.mp known.overlay
  rw [applyChange_document] at changed
  obtain ⟨applied, applying, same⟩ := bind_eq_ok changed
  cases same
  simp only [Turn.change, overlay]
  rw [applying]
  refine ⟨_, rfl, ?_⟩
  split
  · exact known.store rfl rfl rfl
  rename_i none_
  have empty : change.changes = [] := not_not.mp none_
  have unchanged : existing = applied := by
    simp only [applyChange, empty] at applying
    exact Outcome.ok.inj applying
  subst unchanged
  exact ⟨rfl, known.stored, known.others, known.opened, known.reopened⟩

theorem Turned.changes {changes : List FileChange} {document after : Overlay}
    (known : Turned host uri s t (some document)) (changed : changes.foldlM (applyChange host) document = .ok after) :
    ∃ t', changes.foldlM (fun t change => t.change host uri change) t = .ok t' ∧
      Turned host uri s t' (some after) := by
  induction changes generalizing t document with
  | nil =>
    cases changed
    exact ⟨t, rfl, known⟩
  | cons change changes ih =>
    obtain ⟨between, first, later⟩ := bind_eq_ok changed
    obtain ⟨t₁, taken, known₁⟩ := known.change first
    obtain ⟨t', taken', known'⟩ := ih known₁ later
    refine ⟨t', ?_, known'⟩
    rw [foldlM_cons, taken]
    exact taken'

theorem Turned.changed {changes : List FileChange} (known : Turned host uri s t current)
    (changed : changesEffect host changes current = .ok next) :
    ∃ t', (if changes ≠ [] then t.changed host uri changes else .ok t) = .ok t' ∧ Turned host uri s t' next := by
  unfold changesEffect at changed
  split
  · rename_i some_
    rw [if_pos some_] at changed
    cases current with
    | none => cases changed
    | some document =>
      obtain ⟨after, folded, same⟩ := bind_eq_ok changed
      cases same
      have noted : Turned host uri s { t with result := { t.result with changed := insert uri t.result.changed } }
        (some document) := ⟨known.overlay, known.stored, known.others, known.opened, known.reopened⟩
      exact noted.changes folded
  · rename_i none_
    rw [if_neg none_] at changed
    cases changed
    exact ⟨t, rfl, known⟩

theorem Turned.saved (known : Turned host uri s t current) (saved : Bool) (now : savedEffect saved current = .ok next) :
    ∃ t', (if saved then t.saved host uri else .ok t) = .ok t' ∧ Turned host uri s t' next := by
  have here := known.overlay
  unfold savedEffect at now
  cases saved with
  | false =>
    cases now
    exact ⟨t, rfl, known⟩
  | true =>
    cases overlay : t.overlay with
    | none =>
      rw [overlay] at here
      subst here
      cases now
    | some existing =>
      rw [overlay] at here
      subst here
      cases now
      simp only [Turn.saved, overlay, if_pos]
      exact ⟨_, rfl, known.store rfl rfl rfl⟩

theorem opened_noted (uri : DocumentUri) (created deleted : Bool) : (t.noted uri created deleted).opened = t.result.opened ∧
    (t.noted uri created deleted).reopened = t.result.reopened := by
  unfold Turn.noted
  split <;> split <;> exact ⟨rfl, rfl⟩

variable (host) in
/-- A file has been processed: it has come to a document, and the other files have been left alone. -/
structure Processed (uri : DocumentUri) (s s' : FileChangeSummary × Overlays) (document : Option Overlay) : Prop where
  stored : documents host s'.2 (host.path uri) = document
  others : ∀ p, p ≠ host.path uri → documents host s'.2 p = documents host s.2 p

/-- The processing of the events of a file has the effect of the events, as long as it opens no second file. -/
theorem processFile_spec {events : FileEvents} (now : fileEffect host uri events (documents host s.2 (host.path uri)) = .ok next)
    (first : events.openChange.isSome = true → s.1.opened = "" ∧ s.1.reopened = "") :
    ∃ s', processFile host s uri events = .ok s' ∧ Processed host uri s s' next ∧
      (events.openChange = none → s'.1.opened = s.1.opened ∧ s'.1.reopened = s.1.reopened) := by
  cases opening : events.openChange with
  | some openChange =>
    obtain ⟨opened, reopened⟩ := first (by rw [opening]; rfl)
    have free : ¬(s.1.opened ≠ "" ∨ s.1.reopened ≠ "") := by
      rintro (other | other)
      · exact other opened
      · exact other reopened
    simp only [fileEffect, opening] at now
    cases now
    simp only [processFile, opening, Turn.open_, if_neg free]
    refine ⟨_, rfl, ⟨?_, fun p other => ?_⟩, nofun⟩
    · rw [documents_insert, if_pos rfl]
      rfl
    · rw [documents_insert, if_neg other]
  | none =>
    simp only [fileEffect, opening] at now
    obtain ⟨closed, closing, rest⟩ := bind_eq_ok now
    obtain ⟨changed, changing, saving⟩ := bind_eq_ok rest
    have start := turned_start host uri s
    have afterClose : ∃ t', (if events.closeChange.isSome = true then
        Turn.close host ⟨s.1, s.2, s.2.lookup (host.path uri)⟩ uri else .ok ⟨s.1, s.2, s.2.lookup (host.path uri)⟩) =
        .ok t' ∧ Turned host uri s t' closed := by
      cases closes : events.closeChange.isSome with
      | true => 
        rw [closes] at closing
        exact start.close closing
      | false =>
        rw [closes] at closing
        cases closing
        exact ⟨_, rfl, start⟩
    obtain ⟨t₁, first₁, known₁⟩ := afterClose
    have known₂ : Turned host uri s (if events.watchChanged = true then t₁.watchChanged host uri events.saved else t₁)
        closed := by
      split
      · exact known₁.watchChanged events.saved
      · exact known₁
    obtain ⟨t₃, third, known₃⟩ := known₂.changed changing
    obtain ⟨t₄, fourth, known₄⟩ := known₃.saved events.saved saving
    simp only [processFile, opening, monad_bind]
    rw [first₁, bind_ok, third, bind_ok, fourth, bind_ok]
    refine ⟨_, rfl, ⟨known₄.stored, known₄.others⟩, fun _ => ?_⟩
    have opened := opened_noted (t := t₄) uri events.created events.deleted
    exact ⟨opened.1.trans known₄.opened, opened.2.trans known₄.reopened⟩
end

variable (host) {single events : FileEvents} {uri : DocumentUri} {s : FileChangeSummary × Overlays} {isOpen : Path → Prop}

def oneByOne (order : FileEventMap → List DocumentUri) (overlays : Overlays) (changes : List FileChange) :
    Outcome Overlays :=
  changes.foldlM (fun overlays change => processChanges host order overlays [change] >>= fun s => .ok s.2) overlays

def openAfter (isOpen : Path → Prop) (change : FileChange) (p : Path) : Prop :=
  match change.kind with
  | .open_ => p = host.path change.uri ∨ isOpen p
  | .close => p ≠ host.path change.uri ∧ isOpen p
  | _ => isOpen p

def ProtocolCorrect : (Path → Prop) → List FileChange → Prop
  | _, [] => True
  | isOpen, change :: rest =>
    (change.kind = .change ∨ change.kind = .save ∨ change.kind = .close → isOpen (host.path change.uri)) ∧
      ProtocolCorrect (openAfter host isOpen change) rest

def OneUri (changes : List FileChange) : Prop :=
  ∀ a ∈ changes, ∀ b ∈ changes, host.path a.uri = host.path b.uri → a.uri = b.uri

/-- There is at most one open, and it is the last change of its file. -/
def LastOpen (changes : List FileChange) : Prop :=
  ∀ before change after, changes = before ++ change :: after → change.kind = .open_ →
    (∀ other ∈ before ++ after, other.kind ≠ .open_) ∧ ∀ other ∈ after, other.uri ≠ change.uri

variable {host} {order : FileEventMap → List DocumentUri}

variable (host) in
theorem processChanges_single (lists : ∀ m, HashMap.Enumerates (order m) m) (overlays : Overlays) {change : FileChange} (added : ({} : FileEvents).add change = .ok single) :
    ∃ includes, processChanges host order overlays [change] =
      processFile host ({ includesWatchChangeOutsideNodeModules := includes }, overlays) change.uri single := by
  have found : (Finmap.insert change.uri single (∅ : FileEventMap)).lookup change.uri = some single :=
    Finmap.lookup_insert _
  have only : order (Finmap.insert change.uri single ∅) = [change.uri] := by
    obtain ⟨distinct, members⟩ := lists (Finmap.insert change.uri single ∅)
    have one (uri : DocumentUri) : uri ∈ order (Finmap.insert change.uri single ∅) ↔ uri = change.uri := by
      rw [members, Finmap.mem_insert]
      simp [Finmap.notMem_empty]
    have perm := (perm_ext_iff_of_nodup distinct (nodup_singleton change.uri)).mpr fun uri => by
      rw [one, mem_singleton]
    exact perm_singleton.mp perm
  refine ⟨false || change.kind.isWatchKind && !containsNodeModules change.uri, ?_⟩
  simp only [processChanges, foldlM_cons, foldlM_nil, addChange, Finmap.lookup_empty, Option.getD_none]
  rw [added]
  simp only [monad_bind, bind_ok, monad_pure, only, foldlM_cons, foldlM_nil, found,
    Option.getD_some]
  cases processFile host _ change.uri single <;> rfl

theorem fileEffect_of_single {s' : FileChangeSummary × Overlays} {change : FileChange} (added : ({} : FileEvents).add change = .ok single)
    (correct : change.kind = .change ∨ change.kind = .save ∨ change.kind = .close →
      (documents host s.2 (host.path uri)).isSome = true) (taken : processFile host s uri single = .ok s') :
    ∃ next, fileEffect host uri single (documents host s.2 (host.path uri)) = .ok next := by
  simp only [FileEvents.add, Option.isSome_none, Bool.false_eq_true, if_false] at added
  cases kind : change.kind with
  | open_ =>
    simp only [kind] at added
    cases added
    exact ⟨_, rfl⟩
  | close =>
    simp only [kind] at added
    cases added
    have present := correct (.inr (.inr kind))
    cases document : documents host s.2 (host.path uri) with
    | none =>
      rw [document] at present
      cases present
    | some overlay => exact ⟨none, rfl⟩
  | change =>
    simp only [kind] at added
    cases added
    have present := correct (.inl kind)
    cases overlay : s.2.lookup (host.path uri) with
    | none =>
      rw [documents, overlay] at present
      cases present
    | some existing =>
      have here : documents host s.2 (host.path uri) = some (documentOf host existing) := by rw [documents, overlay]; rfl
      cases applied : applyChange host existing change with
      | ok after =>
        refine ⟨some (documentOf host after), ?_⟩
        have applied' : applyChange host (documentOf host existing) change = .ok (documentOf host after) := by
          rw [applyChange_document, applied]
          rfl
        have changes : changesEffect host [change] (some (documentOf host existing)) = .ok (some (documentOf host after)) := by
          rw [changesEffect_single, applied']
          rfl
        rw [here]
        change (changesEffect host [change] (some (documentOf host existing)) >>= savedEffect false) = _
        rw [changes]
        rfl
      | err message =>
        simp [processFile, Turn.changed, Turn.change, overlay, applied, monad_bind, Outcome.bind] at taken
      | panic message =>
        simp [processFile, Turn.changed, Turn.change, overlay, applied, monad_bind, Outcome.bind] at taken
  | save =>
    simp only [kind] at added
    cases added
    have present := correct (.inr (.inl kind))
    cases document : documents host s.2 (host.path uri) with
    | none =>
      rw [document] at present
      cases present
    | some overlay => exact ⟨some overlay, rfl⟩
  | watchCreate =>
    simp only [kind] at added
    cases added
    exact ⟨_, fileEffect_watch rfl rfl rfl rfl _⟩
  | watchChange =>
    simp only [kind] at added
    cases added
    exact ⟨_, fileEffect_watch rfl rfl rfl rfl _⟩
  | watchDelete =>
    simp only [kind] at added
    cases added
    exact ⟨_, fileEffect_watch rfl rfl rfl rfl _⟩

theorem processFiles {events : DocumentUri → FileEvents} {next : DocumentUri → Option Overlay} {uris : List DocumentUri} (distinct : uris.Nodup)
    (named : ∀ u ∈ uris, ∀ v ∈ uris, host.path u = host.path v → u = v)
    (effects : ∀ u ∈ uris, fileEffect host u (events u) (documents host s.2 (host.path u)) = .ok (next u))
    (clean : (s.1.opened = "" ∧ s.1.reopened = "") ∨ ∀ u ∈ uris, (events u).openChange = none)
    (single : ∀ u ∈ uris, ∀ v ∈ uris, (events u).openChange.isSome = true → (events v).openChange.isSome = true → u = v) :
    ∃ s', uris.foldlM (fun s uri => processFile host s uri (events uri)) s = .ok s' ∧
      (∀ u ∈ uris, documents host s'.2 (host.path u) = next u) ∧
      ∀ p, (∀ u ∈ uris, host.path u ≠ p) → documents host s'.2 p = documents host s.2 p := by
  induction uris generalizing s with
  | nil => exact ⟨s, rfl, nofun, fun _ _ => rfl⟩
  | cons uri uris ih =>
    obtain ⟨absent, distinct'⟩ := nodup_cons.mp distinct
    have own {u : DocumentUri} (listed : u ∈ uris) : host.path u ≠ host.path uri := by
      intro same
      have equal := named u (mem_cons_of_mem _ listed) uri mem_cons_self same
      exact absent (equal ▸ listed)
    have first (opens : (events uri).openChange.isSome = true) : s.1.opened = "" ∧ s.1.reopened = "" := by
      rcases clean with clean | none_
      · exact clean
      · rw [none_ uri mem_cons_self] at opens
        cases opens
    obtain ⟨s₁, taken, ⟨stored, others⟩, unopened⟩ := processFile_spec (effects uri mem_cons_self) first
    have clean₁ : (s₁.1.opened = "" ∧ s₁.1.reopened = "") ∨ ∀ u ∈ uris, (events u).openChange = none := by
      cases opening : (events uri).openChange with
      | none =>
        obtain ⟨opened, reopened⟩ := unopened opening
        rcases clean with clean | none_
        · exact .inl ⟨opened.trans clean.1, reopened.trans clean.2⟩
        · exact .inr fun u listed => none_ u (mem_cons_of_mem _ listed)
      | some change =>
        refine .inr fun u listed => ?_
        cases other : (events u).openChange with
        | none => rfl
        | some change' =>
          have equal := single u (mem_cons_of_mem _ listed) uri mem_cons_self (by rw [other]; rfl)
            (by rw [opening]; rfl)
          exact absurd (equal ▸ listed) absent
    obtain ⟨s', taken', done, rest⟩ := ih distinct'
      (fun u hu v hv => named u (mem_cons_of_mem _ hu) v (mem_cons_of_mem _ hv))
      (fun u hu => by rw [others _ (own hu)]; exact effects u (mem_cons_of_mem _ hu)) clean₁
      (fun u hu v hv => single u (mem_cons_of_mem _ hu) v (mem_cons_of_mem _ hv))
    refine ⟨s', ?_, ?_, ?_⟩
    · rw [foldlM_cons, taken]
      exact taken'
    · intro u listed
      rcases mem_cons.mp listed with rfl | later
      · exact (rest _ fun v hv => own hv).trans stored
      · exact done u later
    · intro p apart
      rw [rest p fun u hu => apart u (mem_cons_of_mem _ hu)]
      exact others p (Ne.symm (apart uri mem_cons_self))

variable (host) in
/-- The changes so far, reduced to events, have the effect that they had one by one. -/
structure Reduced (start : Path → Option Overlay) (current : Overlays) (done : List FileChange)
    (fileEventMap : FileEventMap) : Prop where
  effect : ∀ uri events, fileEventMap.lookup uri = some events →
    fileEffect host uri events (start (host.path uri)) = .ok (documents host current (host.path uri))
  fresh : ∀ p, (∀ uri events, fileEventMap.lookup uri = some events → host.path uri ≠ p) →
    documents host current p = start p
  seen : ∀ uri events, fileEventMap.lookup uri = some events → ∃ a ∈ done, a.uri = uri
  opened : ∀ uri events, fileEventMap.lookup uri = some events → events.openChange.isSome = true →
    ∃ a ∈ done, a.uri = uri ∧ a.kind = .open_

variable {start : Path → Option Overlay} {current : Overlays} {done rest : List FileChange} {change : FileChange}
  {fileEventMap : FileEventMap}

theorem Reduced.next (known : Reduced host start current done fileEventMap) (named : OneUri host (done ++ change :: rest))
    (lastOpen : LastOpen (done ++ change :: rest)) :
    fileEffect host change.uri ((fileEventMap.lookup change.uri).getD {}) (start (host.path change.uri)) =
        .ok (documents host current (host.path change.uri)) ∧
      ((fileEventMap.lookup change.uri).getD {}).openChange = none := by
  cases found : fileEventMap.lookup change.uri with
  | none =>
    refine ⟨?_, rfl⟩
    rw [known.fresh]
    · exact fileEffect_watch rfl rfl rfl rfl _
    intro uri events listed same
    obtain ⟨a, before, rfl⟩ := known.seen uri events listed
    have equal := named a (mem_append_left _ before) change (mem_append_right _ mem_cons_self) same
    rw [equal, found] at listed
    cases listed
  | some events =>
    refine ⟨known.effect _ _ found, ?_⟩
    cases opening : events.openChange with
    | none => exact opening
    | some openChange =>
      obtain ⟨a, before, same, kind⟩ := known.opened _ _ found (by rw [opening]; rfl)
      obtain ⟨first, second, shape⟩ := append_of_mem before
      have later := (lastOpen first a (second ++ change :: rest) (by rw [shape]; simp) kind).2 change
        (mem_append_right _ mem_cons_self)
      exact absurd same.symm later

theorem FileEvents.openChange_add {events' : FileEvents} (added : events.add change = .ok events')
    (unopened : events.openChange = none) (opens : events'.openChange.isSome = true) : change.kind = .open_ := by
  unfold FileEvents.add at added
  rw [unopened] at added
  simp only [Option.isSome_none, Bool.false_eq_true, if_false] at added
  cases kind : change.kind with
  | open_ => rfl
  | _ =>
    simp only [kind] at added
    repeat' split at added
    all_goals cases added
    all_goals simp [unopened] at opens

theorem addChange_eq (added : ((fileEventMap.lookup change.uri).getD {}).add change = .ok events) (result : FileChangeSummary) :
    ∃ result', addChange (result, fileEventMap) change = .ok (result', fileEventMap.insert change.uri events) ∧
      result'.opened = result.opened ∧ result'.reopened = result.reopened := by
  simp only [addChange, added]
  exact ⟨_, rfl, rfl, rfl⟩

theorem isSome_of_single {document next : Option Overlay}
    (added : ({} : FileEvents).add change = .ok single) (effect : fileEffect host uri single document = .ok next) :
    (change.kind = .open_ → next.isSome = true) ∧ (change.kind = .close → next.isSome = false) ∧
      (change.kind ≠ .open_ → change.kind ≠ .close → next.isSome = document.isSome) := by
  simp only [FileEvents.add, Option.isSome_none, Bool.false_eq_true, if_false] at added
  cases kind : change.kind with
  | open_ =>
    simp only [kind] at added
    cases added
    cases effect
    exact ⟨fun _ => rfl, nofun, fun other => absurd rfl other⟩
  | close =>
    simp only [kind] at added
    cases added
    refine ⟨nofun, fun _ => ?_, fun _ other => absurd rfl other⟩
    cases document with
    | none => cases effect
    | some overlay =>
      cases effect
      rfl
  | change =>
    simp only [kind] at added
    cases added
    refine ⟨nofun, nofun, fun _ _ => ?_⟩
    cases document with
    | none => cases effect
    | some overlay =>
      obtain ⟨kept, closed, changes⟩ := stages_of_fileEffect effect rfl
      cases closed
      rw [nil_append, changesEffect_single] at changes
      obtain ⟨after, -, same⟩ := bind_eq_ok changes
      cases same
      rfl
  | save =>
    simp only [kind] at added
    cases added
    refine ⟨nofun, nofun, fun _ _ => ?_⟩
    cases document with
    | none => cases effect
    | some overlay =>
      cases effect
      rfl
  | _ =>
    simp only [kind] at added
    cases added
    cases (fileEffect_watch rfl rfl rfl rfl document).symm.trans effect
    exact ⟨nofun, nofun, fun _ _ => rfl⟩

theorem openAfter_iff (opens : ∀ p, isOpen p ↔ (documents host current p).isSome = true) (added : ({} : FileEvents).add change = .ok single) {next : Option Overlay}
    {s₁ : FileChangeSummary × Overlays}
    (effect : fileEffect host change.uri single (documents host current (host.path change.uri)) = .ok next)
    (stored : documents host s₁.2 (host.path change.uri) = next)
    (others : ∀ p, p ≠ host.path change.uri → documents host s₁.2 p = documents host current p) (p : Path) :
    openAfter host isOpen change p ↔ (documents host s₁.2 p).isSome = true := by
  by_cases own : p = host.path change.uri
  · subst own
    obtain ⟨opened, closed, other⟩ := isSome_of_single added effect
    rw [stored]
    unfold openAfter
    cases kind : change.kind with
    | open_ => simp [opened kind]
    | close => simp [closed kind]
    | _ =>
      rw [other (by rw [kind]; nofun) (by rw [kind]; nofun)]
      exact opens _
  · rw [others p own]
    unfold openAfter
    split
    · rw [← opens p]
      exact or_iff_right own
    · rw [← opens p]
      exact and_iff_right own
    · exact opens p

theorem Reduced.step (known : Reduced host start current done fileEventMap)
    (lists : ∀ m, HashMap.Enumerates (order m) m) (named : OneUri host (done ++ change :: rest))
    (lastOpen : LastOpen (done ++ change :: rest))
    {isOpen : Path → Prop} (opens : ∀ p, isOpen p ↔ (documents host current p).isSome = true)
    (correct : change.kind = .change ∨ change.kind = .save ∨ change.kind = .close → isOpen (host.path change.uri))
    {s₁ : FileChangeSummary × Overlays} (taken : processChanges host order current [change] = .ok s₁)
    (result : FileChangeSummary) :
    ∃ result' fileEventMap', addChange (result, fileEventMap) change = .ok (result', fileEventMap') ∧
      result'.opened = result.opened ∧ result'.reopened = result.reopened ∧
      Reduced host start s₁.2 (done ++ [change]) fileEventMap' ∧
      ∀ p, openAfter host isOpen change p ↔ (documents host s₁.2 p).isSome = true := by
  have correct (kind : change.kind = .change ∨ change.kind = .save ∨ change.kind = .close) :=
    (opens _).mp (correct kind)
  obtain ⟨now, unopened⟩ := known.next named lastOpen
  obtain ⟨events', single, added, alone, same⟩ := fileEffect_add now unopened correct
  obtain ⟨includes, run⟩ := processChanges_single host lists current alone
  rw [run] at taken
  obtain ⟨next, effect⟩ := fileEffect_of_single alone correct taken
  obtain ⟨s', taken', ⟨stored, others⟩, -⟩ := processFile_spec effect fun _ => ⟨rfl, rfl⟩
  cases taken.symm.trans taken'
  obtain ⟨result', reduced, opened, reopened⟩ := addChange_eq added result
  have lookup (uri : DocumentUri) := HashMap.lookup_insert_if fileEventMap change.uri uri events'
  refine ⟨result', _, reduced, opened, reopened, ⟨?_, ?_, ?_, ?_⟩, openAfter_iff opens alone effect stored others⟩
  · intro uri events found
    rw [lookup] at found
    split at found
    · rename_i own
      cases found
      rw [own, same, effect, stored]
    rename_i other
    have apart : host.path uri ≠ host.path change.uri := fun equal => by
      obtain ⟨a, before, rfl⟩ := known.seen uri events found
      exact other (named a (mem_append_left _ before) change (mem_append_right _ mem_cons_self) equal)
    rw [known.effect uri events found, others _ apart]
  · intro p apart
    have own : host.path change.uri ≠ p := apart change.uri events' (by rw [lookup, if_pos rfl])
    rw [others p (Ne.symm own)]
    refine known.fresh p fun uri events found => ?_
    by_cases equal : uri = change.uri
    · exact equal ▸ own
    · exact apart uri events (by rw [lookup, if_neg equal, found])
  · intro uri events found
    rw [lookup] at found
    split at found
    · rename_i own
      exact ⟨change, mem_append_right _ mem_cons_self, own.symm⟩
    · obtain ⟨a, before, equal⟩ := known.seen uri events found
      exact ⟨a, mem_append_left _ before, equal⟩
  intro uri events found opens
  rw [lookup] at found
  split at found
  · rename_i own
    cases found
    exact ⟨change, mem_append_right _ mem_cons_self, own.symm,
      FileEvents.openChange_add added unopened opens⟩
  · obtain ⟨a, before, equal, kind⟩ := known.opened uri events found opens
    exact ⟨a, mem_append_left _ before, equal, kind⟩

theorem Reduced.run (lists : ∀ m, HashMap.Enumerates (order m) m) {final : Overlays}
    (known : Reduced host start current done fileEventMap)
    (opens : ∀ p, isOpen p ↔ (documents host current p).isSome = true) (named : OneUri host (done ++ rest))
    (lastOpen : LastOpen (done ++ rest)) (correct : ProtocolCorrect host isOpen rest)
    (taken : oneByOne host order current rest = .ok final) (result : FileChangeSummary) :
    ∃ result' fileEventMap', rest.foldlM addChange (result, fileEventMap) = .ok (result', fileEventMap') ∧
      result'.opened = result.opened ∧ result'.reopened = result.reopened ∧
      Reduced host start final (done ++ rest) fileEventMap' := by
  induction rest generalizing isOpen current done fileEventMap result with
  | nil =>
    cases taken
    exact ⟨result, fileEventMap, rfl, rfl, rfl, by rwa [append_nil]⟩
  | cons change rest ih =>
    obtain ⟨between, now, later⟩ := bind_eq_ok taken
    obtain ⟨s₁, first, same⟩ := bind_eq_ok now
    cases same
    obtain ⟨result₁, fileEventMap₁, added, opened₁, reopened₁, known₁, opens₁⟩ :=
      known.step lists named lastOpen opens correct.1 first result
    have shape : done ++ change :: rest = done ++ [change] ++ rest := by simp
    rw [shape] at named lastOpen
    obtain ⟨result', fileEventMap', reduced, opened, reopened, known'⟩ :=
      ih known₁ opens₁ named lastOpen correct.2 later result₁
    refine ⟨result', fileEventMap', ?_, opened.trans opened₁, reopened.trans reopened₁, shape ▸ known'⟩
    rw [foldlM_cons, added]
    exact reduced

/-- The overlay as other files see it: what it is named, holds, and is. -/
def facts (overlay : Overlay) : String × Text × Int × ScriptKind :=
  (overlay.fileName, overlay.content, overlay.version, overlay.kind)

variable (host) in
theorem facts_of_documents {overlays overlays' : Overlays} {p : Path}
    (same : documents host overlays p = documents host overlays' p) :
    (overlays.lookup p).map facts = (overlays'.lookup p).map facts := by
  have through (overlay : Option Overlay) : overlay.map facts = (overlay.map (documentOf host)).map facts := by
    cases overlay <;> rfl
  rw [through, through (overlays'.lookup p)]
  exact congrArg (Option.map facts) same

theorem lastOpen_singleton (other : change.kind ≠ .open_) : LastOpen [change] := by
  intro before c after shape kind
  have listed : c ∈ [change] := shape ▸ mem_append_right _ mem_cons_self
  rw [mem_singleton.mp listed] at kind
  exact absurd kind other

variable (host) in
theorem oneUri_singleton (change : FileChange) : OneUri host [change] := by
  intro a ha b hb _
  rw [mem_singleton.mp ha, mem_singleton.mp hb]

theorem applyChange_inside_character : applyChange ⟨fun _ => 0, fun _ => none, id, id, .utf8⟩ ⟨"a.ts", ['é'], 0, 1, .ts, false⟩
      ⟨.change, "a.ts", 2, [], "", [⟨some ⟨⟨⟨0, 1⟩, ⟨0, 1⟩⟩, ['x']⟩, none⟩]⟩ =
      .panic "byte index is not a char boundary" := by
  decide +kernel

end TypeScriptRs.Project
