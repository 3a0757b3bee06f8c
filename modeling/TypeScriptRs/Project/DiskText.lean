import TypeScriptRs.Project.Batches
import TypeScriptRs.Project.NoticedEvents
import TypeScriptRs.Project.WatchEvents
import Mathlib.Data.Nat.Pairing

/-! Whether an overlay that claims to match the disk does, over runs of batches. -/
namespace TypeScriptRs.Project
open Machine Utf8 List Outcome

def Host.reading (host : Host) (disk : String → Option Text) : Host := { host with readFile := disk }

section
variable {file file' : OpenFile}

inductive DiskStep : FileChangeKind → Option Text → Option Text → Prop
  | create (text : Text) : DiskStep .watchCreate none (some text)
  | change (text text' : Text) : DiskStep .watchChange (some text) (some text')
  | delete (text : Text) : DiskStep .watchDelete (some text) none
  | known (kind : FileChangeKind) (disk : Option Text) : DiskStep kind disk disk

/-- An open file: its document, what is on the disk, and what was there when it was last written or first looked at. -/
structure OpenFile where
  document : Overlay
  disk : Option Text
  written : Option Text

variable (host : Host)

inductive Happens : OpenFile → FileChange → OpenFile → Prop
  | change {file : OpenFile} {change : FileChange} {document : Overlay} : change.kind = .change →
      applyChange host file.document change = .ok document → Happens file change { file with document }
  | save {file : OpenFile} {change : FileChange} : change.kind = .save →
      Happens file change { file with disk := some file.document.content, written := some file.document.content }
  | watch {file : OpenFile} {change : FileChange} {disk : Option Text} : change.kind.isWatchKind = true →
      DiskStep change.kind file.disk disk → Happens file change { file with disk }

inductive Lives : OpenFile → List FileChange → OpenFile → Prop
  | nil (file : OpenFile) : Lives file [] file
  | cons {file file' file'' : OpenFile} {change : FileChange} {changes : List FileChange} :
      Happens host file change file' → Lives file' changes file'' → Lives file (change :: changes) file''

variable {host}

def Rewrites (change : FileChange) : Prop := change.kind = .change ∧ change.changes ≠ []

theorem applyChange_empty {overlay : Overlay} {change : FileChange} (empty : change.changes = []) :
    applyChange host overlay change = .ok overlay := by
  unfold applyChange
  rw [empty]
  rfl

theorem Lives.unwritten {changes : List FileChange} (lives : Lives host file changes file')
    (kept : ∀ change ∈ changes, ¬ Rewrites change) :
    file'.document = file.document ∧ (file'.written = file.written ∨ file'.written = some file.document.content) := by
  induction lives with
  | nil file => exact ⟨rfl, .inl rfl⟩
  | cons happens later ih =>
    obtain ⟨same, written⟩ := ih fun change member => kept change (mem_cons_of_mem _ member)
    cases happens with
    | change kind applied =>
      have empty := not_not.mp fun some_ => kept _ mem_cons_self ⟨kind, some_⟩
      rw [applyChange_empty empty] at applied
      cases applied
      exact ⟨same, written⟩
    | save kind =>
      refine ⟨same, .inr ?_⟩
      rcases written with before | after
      · exact before
      · exact after
    | watch watch step => exact ⟨same, written⟩

theorem Lives.split {before after : List FileChange} (lives : Lives host file (before ++ after) file') :
    ∃ between, Lives host file before between ∧ Lives host between after file' := by
  induction before generalizing file with
  | nil => exact ⟨file, .nil file, lives⟩
  | cons change before ih =>
    cases lives with
    | cons happens later =>
      obtain ⟨between, first, second⟩ := ih later
      exact ⟨between, .cons happens first, second⟩

theorem Lives.written_of_inForce {changes : List FileChange} (lives : Lives host file changes file')
    (current : InForce changes) : file'.written = some file'.document.content := by
  obtain ⟨before, save, after, rfl, kind, upToDate⟩ := current
  obtain ⟨between, -, rest⟩ := lives.split
  cases rest with
  | cons happens later =>
    obtain ⟨same, written⟩ := later.unwritten fun change member rewrites => upToDate (.inl ⟨change, member, .inl rewrites.1⟩)
    cases happens with
    | change kind' => cases kind.symm.trans kind'
    | save kind' =>
      rw [same]
      rcases written with before | after
      · exact before
      · exact after
    | watch watch =>
      rw [kind] at watch
      cases watch

theorem Lives.documents {changes : List FileChange} (lives : Lives host file changes file') :
    (changes.filter (·.kind = .change)).foldlM (applyChange host) file.document = .ok file'.document := by
  induction lives with
  | nil file => rfl
  | cons happens later ih =>
    cases happens with
    | change kind applied =>
      rw [filter_cons_of_pos (by simpa using kind), foldlM_cons, applied]
      exact ih
    | save kind =>
      rw [filter_cons_of_neg (by simp [kind])]
      exact ih
    | watch watch =>
      rw [filter_cons_of_neg fun kind => by simp [of_decide_eq_true kind, FileChangeKind.isWatchKind] at watch]
      exact ih
end

section
variable {host : Host} {uri : DocumentUri} {t t' : Turn} {overlay : Overlay}

def Hashed (host : Host) (overlay : Overlay) : Prop := overlay.hash = host.xxh3 overlay.content

structure InSync (host : Host) (uri : DocumentUri) (t : Turn) (overlay : Overlay) : Prop where
  current : t.overlay = some overlay
  stored : t.newOverlays.lookup (host.path uri) = some overlay
  hashed : Hashed host overlay

theorem InSync.watchChanged (sync : InSync host uri t overlay) (saved : Bool) :
    ∃ overlay', InSync host uri (t.watchChanged host uri saved) overlay' ∧ documentOf host overlay' = documentOf host overlay ∧
      overlay'.matchesDiskText = if saved then overlay.matchesDiskText else (overlay.computeMatchesDiskText host).1 := by
  unfold Turn.watchChanged
  simp only [sync.current]
  cases saved with
  | true => exact ⟨overlay, sync, rfl, rfl⟩
  | false =>
    simp only [Bool.not_false, if_true]
    split
    · refine ⟨_, ⟨rfl, ?_, rfl⟩, rfl, rfl⟩
      rw [HashMap.lookup_insert_if, if_pos rfl]
    · rename_i same
      exact ⟨overlay, sync, rfl, (not_not.mp same).symm⟩

theorem applyChange_rewritten {change : FileChange} {after : Overlay} (applied : applyChange host overlay change = .ok after)
    (some_ : change.changes ≠ []) : Hashed host after ∧ after.matchesDiskText = false := by
  obtain ⟨current, -, rest⟩ := bind_eq_ok applied
  rw [if_pos some_] at rest
  cases rest
  exact ⟨rfl, rfl⟩

section
variable (sync : InSync host uri t overlay)
include sync

theorem InSync.change {change : FileChange} (changed : t.change host uri change = .ok t') :
    ∃ overlay', applyChange host overlay change = .ok overlay' ∧ InSync host uri t' overlay' := by
  unfold Turn.change at changed
  rw [sync.current] at changed
  obtain ⟨overlay', applied, rest⟩ := bind_eq_ok changed
  cases rest
  refine ⟨overlay', applied, ?_⟩
  by_cases empty : change.changes = []
  · rw [applyChange_empty empty] at applied
    cases applied
    exact ⟨rfl, by simpa [empty] using sync.stored, sync.hashed⟩
  · refine ⟨rfl, ?_, (applyChange_rewritten applied empty).1⟩
    rw [if_pos empty, HashMap.lookup_insert_if, if_pos rfl]

theorem InSync.changes {changes : List FileChange}
    (changed : changes.foldlM (fun t change => t.change host uri change) t = .ok t') :
    ∃ overlay', changes.foldlM (applyChange host) overlay = .ok overlay' ∧ InSync host uri t' overlay' ∧
      (overlay'.matchesDiskText = true ↔ overlay.matchesDiskText = true ∧ ∀ change ∈ changes, change.changes = []) := by
  induction changes generalizing t overlay with
  | nil =>
    cases changed
    exact ⟨overlay, rfl, sync, by simp⟩
  | cons change changes ih =>
    obtain ⟨between, first, later⟩ := bind_eq_ok changed
    obtain ⟨next, applied, sync'⟩ := sync.change first
    obtain ⟨overlay', folded, synced, flag⟩ := ih sync' later
    refine ⟨overlay', by rw [foldlM_cons, applied]; exact folded, synced, flag.trans ?_⟩
    by_cases empty : change.changes = []
    · rw [applyChange_empty empty] at applied
      cases applied
      simp [empty]
    · simp [(applyChange_rewritten applied empty).2, empty]

theorem InSync.changed {changes : List FileChange}
    (changed : (if changes ≠ [] then t.changed host uri changes else .ok t) = .ok t') :
    ∃ overlay', changes.foldlM (applyChange host) overlay = .ok overlay' ∧ InSync host uri t' overlay' ∧
      (overlay'.matchesDiskText = true ↔ overlay.matchesDiskText = true ∧ ∀ change ∈ changes, change.changes = []) := by
  split at changed
  · have noted : InSync host uri { t with result := { t.result with changed := insert uri t.result.changed } } overlay :=
      ⟨sync.current, sync.stored, sync.hashed⟩
    exact noted.changes changed
  · rename_i none_
    cases changed
    rw [not_not.mp none_]
    exact ⟨overlay, rfl, sync, by simp⟩

theorem InSync.saved {saved : Bool} (ran : (if saved then t.saved host uri else .ok t) = .ok t') :
    ∃ overlay', t'.newOverlays.lookup (host.path uri) = some overlay' ∧ documentOf host overlay' = documentOf host overlay ∧
      Hashed host overlay' ∧ (overlay'.matchesDiskText = true ↔ saved = true ∨ overlay.matchesDiskText = true) := by
  cases saved with
  | false =>
    cases ran
    exact ⟨overlay, sync.stored, rfl, sync.hashed, by simp⟩
  | true =>
    unfold Turn.saved at ran
    rw [sync.current] at ran
    cases ran
    exact ⟨_, Finmap.lookup_insert _, rfl, rfl, by simp⟩
end

theorem folded_document {changes : List FileChange} {first second after : Overlay} (same : documentOf host first = documentOf host second)
    (folded : changes.foldlM (applyChange host) first = .ok after) :
    ∃ after', changes.foldlM (applyChange host) second = .ok after' ∧ documentOf host after' = documentOf host after := by
  have left := foldlM_document (applyChange host) applyChange_document changes first
  have right := foldlM_document (applyChange host) applyChange_document changes second
  rw [same, right, folded] at left
  obtain ⟨after', folded', rest⟩ := bind_eq_ok left
  exact ⟨after', folded', Outcome.ok.inj rest⟩

variable {s s' : FileChangeSummary × Overlays} {events : FileEvents}

variable (processed : processFile host s uri events = .ok s')
include processed

/-- The overlay of a file that stays open: its document follows the changes, and its flag is set by a save, or else
kept or looked up as long as no text changes. -/
theorem processFile_overlay (unopened : events.openChange = none)
    (unclosed : events.closeChange = none) (found : s.2.lookup (host.path uri) = some overlay) (hashed : Hashed host overlay) :
    ∃ document final, events.changes.foldlM (applyChange host) overlay = .ok document ∧
      s'.2.lookup (host.path uri) = some final ∧ documentOf host final = documentOf host document ∧ Hashed host final ∧
      (final.matchesDiskText = true ↔ events.saved = true ∨ ((∀ change ∈ events.changes, change.changes = []) ∧
        if events.watchChanged = true then (overlay.computeMatchesDiskText host).1 = true else overlay.matchesDiskText = true)) := by
  unfold processFile at processed
  simp only [unopened, unclosed] at processed
  obtain ⟨t₁, closing, processed⟩ := bind_eq_ok processed
  cases closing
  obtain ⟨t₃, changed, processed⟩ := bind_eq_ok processed
  obtain ⟨t₄, saved, processed⟩ := bind_eq_ok processed
  cases processed
  have start : InSync host uri ⟨s.1, s.2, s.2.lookup (host.path uri)⟩ overlay := ⟨found, found, hashed⟩
  generalize (⟨s.1, s.2, s.2.lookup (host.path uri)⟩ : Turn) = t at start changed
  have looked : ∃ overlay₂, InSync host uri (if events.watchChanged = true then t.watchChanged host uri events.saved else t) overlay₂ ∧
      documentOf host overlay₂ = documentOf host overlay ∧ (events.saved = false → (overlay₂.matchesDiskText = true ↔
        if events.watchChanged = true then (overlay.computeMatchesDiskText host).1 = true else overlay.matchesDiskText = true)) := by
    split
    · obtain ⟨overlay₂, sync, same, flag⟩ := start.watchChanged events.saved
      exact ⟨overlay₂, sync, same, fun unsaved => by rw [flag, unsaved]; rfl⟩
    · exact ⟨overlay, start, rfl, fun _ => Iff.rfl⟩
  obtain ⟨overlay₂, sync₂, same₂, flag₂⟩ := looked
  obtain ⟨overlay₃, folded, sync₃, flag₃⟩ := sync₂.changed changed
  obtain ⟨final, stored, same, hashed', flag⟩ := sync₃.saved saved
  obtain ⟨document, folded', same'⟩ := folded_document same₂ folded
  refine ⟨document, final, folded', stored, same.trans same'.symm, hashed', flag.trans ?_⟩
  cases unsaved : events.saved with
  | true => simp
  | false => rw [flag₃, flag₂ unsaved, and_comm]

theorem processFile_unopened (unopened : events.openChange = none)
    (closed : s.2.lookup (host.path uri) = none ∨ events.closeChange ≠ none) : s'.2.lookup (host.path uri) = none := by
  unfold processFile at processed
  simp only [unopened] at processed
  obtain ⟨t₁, closing, processed⟩ := bind_eq_ok processed
  obtain ⟨t₃, changed, processed⟩ := bind_eq_ok processed
  obtain ⟨t₄, saved, processed⟩ := bind_eq_ok processed
  cases processed
  have absent₁ : t₁.overlay = none ∧ t₁.newOverlays.lookup (host.path uri) = none := by
    split at closing
    · unfold Turn.close at closing
      split at closing
      · cases closing
      · cases closing
        exact ⟨rfl, by rw [HashMap.lookup_erase_if, if_pos rfl]⟩
    · rename_i open_
      cases closing
      have absent := closed.resolve_right fun some_ => open_ (Option.isSome_iff_ne_none.mpr some_)
      exact ⟨absent, absent⟩
  have absent₂ : ∀ t₂, t₂ = (if events.watchChanged = true then t₁.watchChanged host uri events.saved else t₁) →
      t₂.overlay = none ∧ t₂.newOverlays.lookup (host.path uri) = none := by
    rintro t₂ rfl
    split
    · simp only [Turn.watchChanged, absent₁.1]
      exact ⟨trivial, absent₁.2⟩
    · exact absent₁
  generalize (if events.watchChanged = true then t₁.watchChanged host uri events.saved else t₁) = t₂ at absent₂ changed
  obtain ⟨absent, missing⟩ := absent₂ t₂ rfl
  split at changed
  · rename_i some_
    obtain ⟨first, rest, shape⟩ := exists_cons_of_ne_nil some_
    unfold Turn.changed at changed
    simp only [shape, foldlM_cons, Turn.change, absent] at changed
    cases changed
  cases changed
  split at saved
  · unfold Turn.saved at saved
    rw [absent] at saved
    cases saved
  · cases saved
    exact missing

theorem processFile_opened {change : FileChange} (opened : events.openChange = some change) :
    ∃ final, s'.2.lookup (host.path uri) = some final ∧ Hashed host final ∧ final.matchesDiskText = false := by
  unfold processFile at processed
  simp only [opened] at processed
  obtain ⟨t, opening, rest⟩ := bind_eq_ok processed
  cases rest
  unfold Turn.open_ at opening
  split at opening
  · cases opening
  · cases opening
    exact ⟨_, Finmap.lookup_insert _, rfl, rfl⟩
end

section
variable {host : Host}

theorem applyChange_fileName {overlay after : Overlay} {change : FileChange} (applied : applyChange host overlay change = .ok after) :
    after.fileName = overlay.fileName := by
  have kept := @Outcome.Ensures.foldlM _ _ (fun now : Overlay => now.fileName = overlay.fileName) (applyTextChange host change.version)
    change.changes (fun now textChange same after applied => by
      unfold applyTextChange at applied
      split at applied
      · obtain ⟨edit, -, rest⟩ := bind_eq_ok applied
        obtain ⟨content, -, rest⟩ := bind_eq_ok rest
        cases rest
        exact same
      · cases applied
        exact same
      · cases applied
        exact same) overlay rfl
  obtain ⟨current, folded, rest⟩ := bind_eq_ok applied
  have same := kept current folded
  split at rest
  · cases rest
    exact same
  · cases rest
    exact same

theorem Lives.fileName {file file' : OpenFile} {changes : List FileChange} (lives : Lives host file changes file') :
    file'.document.fileName = file.document.fileName := by
  induction lives with
  | nil file => rfl
  | cons happens later ih =>
    cases happens with
    | change kind applied => exact ih.trans (applyChange_fileName applied)
    | save kind => exact ih
    | watch watch step => exact ih

theorem matches_of_computed (unique : Function.Injective host.xxh3) {overlay : Overlay} (hashed : Hashed host overlay)
    (computed : (overlay.computeMatchesDiskText host).1 = true) : host.readFile overlay.fileName = some overlay.content := by
  unfold Overlay.computeMatchesDiskText at computed
  split at computed
  · cases computed
  · split at computed
    · cases computed
    · rename_i content read
      rw [read, unique ((of_decide_eq_true computed).trans hashed)]

/-- The reports of the disk count: nothing was reported since the file was written, or no save is in force, and a flag that
was set is looked up again or given up with the text. -/
def Settled (flagged : Bool) (changes : List FileChange) (file : OpenFile) : Prop :=
  file.disk = file.written ∨
    ¬ InForce changes ∧ (flagged = true → (∃ change ∈ changes, Rewrites change) ∨ Looks changes)

variable {changes : List FileChange} {events : FileEvents} {overlay final : Overlay} {disk : Option Text} {file : OpenFile}
  {reading : String → Option Text}

theorem Reduces.unwritten_iff (reduces : Reduces changes events) :
    (∀ change ∈ events.changes, change.changes = []) ↔ ∀ change ∈ changes, ¬ Rewrites change := by
  rw [reduces.changes]
  constructor
  · rintro empty change member ⟨kind, some_⟩
    exact some_ (empty change (mem_filter.mpr ⟨member, decide_eq_true kind⟩))
  · intro kept change member
    obtain ⟨inside, kind⟩ := mem_filter.mp member
    exact not_not.mp fun some_ => kept change inside ⟨of_decide_eq_true kind, some_⟩

theorem flag_iff_settled (unique : Function.Injective host.xxh3) (hashed : Hashed host overlay) (reduces : Reduces changes events)
    (lives : Lives host ⟨overlay, disk, disk⟩ changes file) (read : file.disk = reading overlay.fileName)
    (trusted : overlay.matchesDiskText = true → disk = some overlay.content) (content : final.content = file.document.content)
    (flag : final.matchesDiskText = true ↔ events.saved = true ∨ ((∀ change ∈ events.changes, change.changes = []) ∧
      if events.watchChanged = true then (overlay.computeMatchesDiskText (host.reading reading)).1 = true
      else overlay.matchesDiskText = true)) :
    (final.matchesDiskText = true → file.disk = some final.content) ↔ Settled overlay.matchesDiskText changes file := by
  rw [reduces.unwritten_iff, reduces.saved] at flag
  have kept : (∀ change ∈ changes, ¬ Rewrites change) → overlay.matchesDiskText = true →
      file.document = overlay ∧ file.written = some overlay.content := by
    intro unwritten flagged
    obtain ⟨same, written⟩ := lives.unwritten unwritten
    exact ⟨same, written.elim (fun before => before.trans (trusted flagged)) id⟩
  constructor
  · intro right
    by_contra unsettled
    obtain ⟨changed, unaccounted⟩ := not_or.mp unsettled
    by_cases current : InForce changes
    · refine changed ?_
      rw [right (flag.mpr (.inl current)), content, lives.written_of_inForce current]
    obtain ⟨flagged, forgotten⟩ := Classical.not_imp.mp fun implied => unaccounted ⟨current, implied⟩
    obtain ⟨kept_, unseen⟩ := not_or.mp forgotten
    have unwritten : ∀ change ∈ changes, ¬ Rewrites change := fun change member rewrites => kept_ ⟨change, member, rewrites⟩
    obtain ⟨same, written⟩ := kept unwritten flagged
    refine changed ?_
    rw [right (flag.mpr (.inr ⟨unwritten, by rwa [if_neg (mt reduces.watchChanged.mp unseen)]⟩)), content, same, written]
  intro settled set_
  rw [content]
  rcases flag.mp set_ with current | ⟨unwritten, looked⟩
  · have written := lives.written_of_inForce current
    exact (settled.resolve_right fun both => both.1 current).trans written
  split at looked
  · rw [(lives.unwritten unwritten).1, read]
    exact @matches_of_computed (host.reading reading) unique overlay hashed looked
  rename_i unseen
  obtain ⟨same, written⟩ := kept unwritten looked
  rw [same]
  rcases settled with unchanged | ⟨-, counted⟩
  · exact unchanged.trans written
  · rcases counted looked with ⟨change, member, rewrites⟩ | seen
    · exact absurd rewrites (unwritten change member)
    · exact absurd (reduces.watchChanged.mpr seen) unseen
end

section
variable (host : Host)

structure World where
  overlays : Overlays
  disk : String → Option Text

def fileChanges (p : Path) (changes : List FileChange) : List FileChange := changes.filter (host.path ·.uri = p)

/-- A batch that returns, names each file by one URI, and reports what becomes of the files on the disk that stay open. -/
structure Batch (s : World) (changes : List FileChange) (s' : World) : Prop where
  returned : ∃ order summary, (∀ m, HashMap.Enumerates (order m) m) ∧
    processChanges (host.reading s'.disk) order s.overlays changes = .ok (summary, s'.overlays)
  named : OneUri host changes
  reported : ∀ p overlay, s.overlays.lookup p = some overlay → StaysOpen (fileChanges host p changes) →
    ∃ file, Lives host ⟨overlay, s.disk overlay.fileName, s.disk overlay.fileName⟩ (fileChanges host p changes) file ∧
      file.disk = s'.disk overlay.fileName

def World.FaithfulAt (s : World) (p : Path) : Prop :=
  ∀ overlay, s.overlays.lookup p = some overlay → overlay.matchesDiskText = true → s.disk overlay.fileName = some overlay.content

def World.Faithful (s : World) : Prop := ∀ p, s.FaithfulAt p

def World.Hashed (s : World) : Prop := ∀ p overlay, s.overlays.lookup p = some overlay → Project.Hashed host overlay

def AccountedAt (p : Path) (s : World) (changes : List FileChange) (s' : World) : Prop :=
  ∀ overlay file, s.overlays.lookup p = some overlay → StaysOpen (fileChanges host p changes) →
    Lives host ⟨overlay, s.disk overlay.fileName, s.disk overlay.fileName⟩ (fileChanges host p changes) file →
    file.disk = s'.disk overlay.fileName → Settled overlay.matchesDiskText (fileChanges host p changes) file

def Accounted (s : World) (changes : List FileChange) (s' : World) : Prop := ∀ p, AccountedAt host p s changes s'

variable {host} {order : FileEventMap → List DocumentUri} {overlays final : Overlays} {changes : List FileChange}
  {summary : FileChangeSummary} {s s' : World} {reading : String → Option Text}

theorem fileChanges_own (named : OneUri host changes) {change : FileChange} (member : change ∈ changes) :
    fileChanges host (host.path change.uri) changes = ownChanges change.uri changes := by
  refine filter_congr fun other inside => ?_
  rw [decide_eq_decide]
  exact ⟨named other inside change member, congrArg host.path⟩

theorem processChanges_at (lists : ∀ m, HashMap.Enumerates (order m) m) (named : OneUri host changes)
    (returned : processChanges (host.reading reading) order overlays changes = .ok (summary, final)) (p : Path) :
    (fileChanges host p changes = [] ∧ final.lookup p = overlays.lookup p) ∨
      ∃ uri events s₁ s₂, host.path uri = p ∧ (fileChanges host p changes).foldlM FileEvents.add {} = .ok events ∧
        s₁.2.lookup p = overlays.lookup p ∧ processFile (host.reading reading) s₁ uri events = .ok s₂ ∧ final.lookup p = s₂.2.lookup p := by
  obtain ⟨folded, adding, processing⟩ := bind_eq_ok returned
  obtain ⟨result, fileEventMap⟩ := folded
  obtain ⟨distinct, listed⟩ := lists fileEventMap
  have mentioned : ∀ v, v ∈ order fileEventMap ↔ ownChanges v changes ≠ [] := by
    intro v
    rw [listed, (addChanges_own adding v).2]
    exact or_iff_right Finmap.notMem_empty
  have spares : ∀ (list : List DocumentUri), (∀ v ∈ list, host.path v ≠ p) → ∀ s s' : FileChangeSummary × Overlays,
      list.foldlM (fun s v => processFile (host.reading reading) s v ((fileEventMap.lookup v).getD {})) s = .ok s' →
        s'.2.lookup p = s.2.lookup p := by
    intro list elsewhere
    induction list with
    | nil =>
      rintro s s' ⟨⟩
      rfl
    | cons v list ih =>
      intro s s' ran
      obtain ⟨between, first, later⟩ := bind_eq_ok ran
      rw [ih (fun v member => elsewhere v (mem_cons_of_mem _ member)) between s' later]
      exact (processFile_spares first).overlays p (Ne.symm (elsewhere v mem_cons_self))
  by_cases touched : fileChanges host p changes = []
  · refine .inl ⟨touched, spares (order fileEventMap) (fun v member same => ?_) (result, overlays) (summary, final) processing⟩
    obtain ⟨change, rest, shape⟩ := exists_cons_of_ne_nil ((mentioned v).mp member)
    obtain ⟨inside, named'⟩ := mem_filter.mp (show change ∈ ownChanges v changes by simp [shape])
    have here : change ∈ fileChanges host p changes := mem_filter.mpr ⟨inside, by
      rw [of_decide_eq_true named', same]
      exact decide_eq_true rfl⟩
    rw [touched] at here
    cases here
  obtain ⟨change, rest, shape⟩ := exists_cons_of_ne_nil touched
  obtain ⟨inside, located⟩ := mem_filter.mp (show change ∈ fileChanges host p changes by simp [shape])
  obtain rfl := of_decide_eq_true located
  have own := fileChanges_own named inside
  rw [own] at touched ⊢
  have elsewhere : ∀ v, v ∈ order fileEventMap → v ≠ change.uri → host.path v ≠ host.path change.uri := by
    intro v member other same
    obtain ⟨first, others, shape'⟩ := exists_cons_of_ne_nil ((mentioned v).mp member)
    obtain ⟨inside', named'⟩ := mem_filter.mp (show first ∈ ownChanges v changes by simp [shape'])
    rw [← of_decide_eq_true named'] at same other
    exact other (named first inside' change inside same)
  obtain ⟨before, after, s₁, s₂, apart, apart', first, second, third, listed'⟩ :=
    processFiles_cut distinct ((mentioned change.uri).mpr touched) processing
  refine .inr ⟨change.uri, _, s₁, s₂, rfl, (addChanges_own adding change.uri).1, ?_, second, ?_⟩
  · exact spares before (fun v member => elsewhere v (listed' v (.inl member)) fun same => apart (same ▸ member)) _ _ first
  · exact spares after (fun v member => elsewhere v (listed' v (.inr member)) fun same => apart' (same ▸ member)) _ _ third

theorem facts_of_document {overlay document : Overlay} (same : documentOf host overlay = documentOf host document) :
    overlay.content = document.content ∧ overlay.fileName = document.fileName :=
  ⟨(Overlay.mk.injEq .. ▸ same).2.1, (Overlay.mk.injEq .. ▸ same).1⟩

theorem Batch.hashed (batch : Batch host s changes s') (hashed : s.Hashed host) : s'.Hashed host := by
  intro p final found
  obtain ⟨order, summary, lists, returned⟩ := batch.returned
  rcases processChanges_at lists batch.named returned p with ⟨-, same⟩ | ⟨uri, events, s₁, s₂, rfl, -, before, processed, after⟩
  · exact hashed p final (same ▸ found)
  rw [after] at found
  cases opening : events.openChange with
  | some change =>
    obtain ⟨opened, stored, fresh, -⟩ := processFile_opened processed opening
    cases found.symm.trans stored
    exact fresh
  | none =>
    by_cases closed : s₁.2.lookup (host.path uri) = none ∨ events.closeChange ≠ none
    · have absent := processFile_unopened processed opening closed
      cases found.symm.trans absent
    obtain ⟨open_, unclosed⟩ := not_or.mp closed
    obtain ⟨overlay, existing⟩ := Option.ne_none_iff_exists'.mp open_
    obtain ⟨document, final', -, stored, -, fresh, -⟩ := processFile_overlay processed opening (not_not.mp unclosed) existing
      (hashed _ overlay (before ▸ existing))
    cases found.symm.trans stored
    exact fresh

theorem Batch.faithfulAt_iff (batch : Batch host s changes s') (unique : Function.Injective host.xxh3) (hashed : s.Hashed host)
    {p : Path} (faithful : s.FaithfulAt p) : s'.FaithfulAt p ↔ AccountedAt host p s changes s' := by
  obtain ⟨order, summary, lists, returned⟩ := batch.returned
  rcases processChanges_at lists batch.named returned p with ⟨untouched, same⟩ | ⟨uri, events, s₁, s₂, rfl, folded, before, processed, after⟩
  · have stays : StaysOpen (fileChanges host p changes) := by simp [untouched, StaysOpen]
    refine iff_of_true (fun overlay found flagged => ?_) fun overlay file found stays lives read => ?_
    · rw [same] at found
      obtain ⟨file, lives, read⟩ := batch.reported p overlay found stays
      rw [untouched] at lives
      cases lives
      rw [← read]
      exact faithful overlay found flagged
    · rw [untouched] at lives
      cases lives
      exact .inl rfl
  have plain : StaysOpen (fileChanges host (host.path uri) changes) → events.openChange = none ∧ events.closeChange = none := by
    intro stays
    obtain ⟨events', folded', reduces⟩ := reduces_of_staysOpen stays
    cases folded.symm.trans folded'
    exact ⟨reduces.openChange, reduces.closeChange⟩
  cases opening : events.openChange with
  | some change =>
    obtain ⟨opened, stored, -, unflagged⟩ := processFile_opened processed opening
    refine iff_of_true (fun overlay found flagged => ?_) fun overlay file found stays => ?_
    · cases (found.symm.trans after).trans stored
      cases unflagged.symm.trans flagged
    · cases opening.symm.trans (plain stays).1
  | none =>
    by_cases closed : s₁.2.lookup (host.path uri) = none ∨ events.closeChange ≠ none
    · have absent := processFile_unopened processed opening closed
      refine iff_of_true (fun overlay found => ?_) fun overlay file found stays => ?_
      · cases (found.symm.trans after).trans absent
      · rcases closed with missing | some_
        · cases (found.symm.trans before.symm).trans missing
        · exact absurd (plain stays).2 some_
    obtain ⟨open_, unclosed⟩ := not_or.mp closed
    obtain ⟨overlay, existing⟩ := Option.ne_none_iff_exists'.mp open_
    have found := before ▸ existing
    have stays := staysOpen_of_folded folded opening (not_not.mp unclosed)
    obtain ⟨events', folded', reduces⟩ := reduces_of_staysOpen stays
    cases folded.symm.trans folded'
    obtain ⟨document, final, changed, stored, same, -, flag⟩ := processFile_overlay processed opening (not_not.mp unclosed) existing
      (hashed _ overlay found)
    obtain ⟨content, fileName⟩ := facts_of_document same
    have settles : ∀ file, Lives host ⟨overlay, s.disk overlay.fileName, s.disk overlay.fileName⟩
        (fileChanges host (host.path uri) changes) file → file.disk = s'.disk overlay.fileName →
        ((final.matchesDiskText = true → s'.disk final.fileName = some final.content) ↔
          Settled overlay.matchesDiskText (fileChanges host (host.path uri) changes) file) := by
      intro file lives read
      have followed := lives.documents
      rw [← reduces.changes] at followed
      cases changed.symm.trans followed
      rw [fileName, lives.fileName, ← read]
      exact flag_iff_settled unique (hashed _ overlay found) reduces lives read (faithful overlay found) content flag
    constructor
    · intro right overlay' file found' _ lives read
      cases found.symm.trans found'
      exact (settles file lives read).mp (right final (after.trans stored))
    · intro accounted final' found' flagged
      cases (found'.symm.trans after).trans stored
      obtain ⟨file, lives, read⟩ := batch.reported _ overlay found stays
      exact (settles file lives read).mpr (accounted overlay file found stays lives read) flagged

variable (host) in
/-- A run of batches: the changes of each, and the world after it. -/
inductive Run : World → List (List FileChange × World) → Prop
  | nil (s : World) : Run s []
  | cons {s s' : World} {changes : List FileChange} {rest : List (List FileChange × World)} :
      Batch host s changes s' → Run s' rest → Run s ((changes, s') :: rest)

def Throughout (P : World → List FileChange → World → Prop) : World → List (List FileChange × World) → Prop
  | _, [] => True
  | s, step :: rest => P s step.1 step.2 ∧ Throughout P step.2 rest

/-- The flags are right in every state of a run exactly if the reports of every batch count. -/
theorem faithful_iff_accounted (unique : Function.Injective host.xxh3) {start : World} {steps : List (List FileChange × World)}
    (hashed : start.Hashed host) (faithful : start.Faithful) (run : Run host start steps) :
    (∀ step ∈ steps, step.2.Faithful) ↔ Throughout (Accounted host) start steps := by
  induction run with
  | nil s => exact iff_of_true (by simp) trivial
  | @cons s s' changes rest batch later ih =>
    have here : s'.Faithful ↔ Accounted host s changes s' := forall_congr' fun p => batch.faithfulAt_iff unique hashed (faithful p)
    rw [forall_mem_cons]
    constructor
    · rintro ⟨now, after⟩
      exact ⟨here.mp now, (ih (batch.hashed hashed) now).mp after⟩
    · rintro ⟨accounted, after⟩
      have now := here.mpr accounted
      exact ⟨now, (ih (batch.hashed hashed) now).mpr after⟩
end

variable {overlay overlay' : Overlay} {disk : Option Text}

def pairHash : Text → Nat
  | [] => 0
  | c :: text => Nat.pair c.toNat (pairHash text) + 1

theorem pairHash_injective : Function.Injective pairHash := by
  intro a
  induction a with
  | nil =>
    intro b same
    cases b with
    | nil => rfl
    | cons d b => cases same
  | cons c a ih =>
    intro b same
    cases b with
    | nil => cases same
    | cons d b =>
      obtain ⟨head, tail⟩ := Nat.pair_eq_pair.mp (Nat.succ.inj same)
      rw [Char.toNat_inj.mp head, ih tail]

def pairHost : Host := ⟨pairHash, fun _ => none, id, id, .utf16⟩

def oneFile (overlay : Overlay) (disk : Option Text) : World :=
  ⟨Finmap.singleton "a.ts" overlay, fun name => if name = "a.ts" then disk else none⟩

theorem oneFile_lookup {p : Path}
    (found : (oneFile overlay disk).overlays.lookup p = some overlay') : p = "a.ts" ∧ overlay' = overlay := by
  have listed : p ∈ (oneFile overlay disk).overlays := Finmap.mem_of_lookup_eq_some found
  obtain rfl := (Finmap.mem_singleton _ _ _).mp listed
  exact ⟨rfl, Option.some.inj (found.symm.trans Finmap.lookup_singleton_eq)⟩

theorem batch_oneFile {disk' : Option Text} {change : FileChange} {events : FileEvents} {file : OpenFile}
    (named : overlay.fileName = "a.ts") (uri : change.uri = "a.ts") (added : ({} : FileEvents).add change = .ok events)
    (processed : ∀ result, ∃ summary, processFile (pairHost.reading (oneFile overlay' disk').disk)
      (result, (oneFile overlay disk).overlays) "a.ts" events = .ok (summary, (oneFile overlay' disk').overlays))
    (happens : Happens pairHost ⟨overlay, disk, disk⟩ change file) (after : file.disk = disk') :
    Batch pairHost (oneFile overlay disk) [change] (oneFile overlay' disk') where
  returned := by
    choose order lists using fun m : FileEventMap => HashMap.exists_enumerates m
    obtain ⟨includes, run⟩ := processChanges_single (pairHost.reading (oneFile overlay' disk').disk) lists (oneFile overlay disk).overlays added
    obtain ⟨summary, ran⟩ := processed { includesWatchChangeOutsideNodeModules := includes }
    rw [uri] at run
    exact ⟨order, summary, lists, run.trans ran⟩
  named := oneUri_singleton pairHost change
  reported p open_ found _ := by
    obtain ⟨rfl, rfl⟩ := oneFile_lookup found
    have all : fileChanges pairHost "a.ts" [change] = [change] := filter_cons_of_pos (decide_eq_true uri)
    rw [all, named]
    exact ⟨file, .cons happens (.nil file), after⟩

theorem oneFile_hashed (hashed : Hashed pairHost overlay) : (oneFile overlay disk).Hashed pairHost := by
  intro p overlay' found
  rw [(oneFile_lookup found).2]
  exact hashed

/-- A save sets the flag. -/
theorem faithful_iff_accounted_saved : ∃ start final : World, start.overlays.lookup "a.ts" ≠ none ∧
    ((∀ step ∈ [([watchEvent .save "a.ts"], final)], step.2.Faithful) ↔
      Throughout (Accounted pairHost) start [([watchEvent .save "a.ts"], final)]) := by
  let overlay : Overlay := newOverlay pairHost "a.ts" ['a'] 1 .ts
  have batch : Batch pairHost (oneFile overlay none) [watchEvent .save "a.ts"]
      (oneFile { overlay with matchesDiskText := true } (some ['a'])) := by
    refine batch_oneFile rfl rfl rfl (fun result => ⟨result, ?_⟩) (.save rfl) rfl
    exact congrArg (fun overlays => Outcome.ok (result, overlays)) (Finmap.insert_singleton_eq)
  refine ⟨oneFile overlay none, _, ?_, faithful_iff_accounted pairHash_injective (oneFile_hashed rfl) ?_ (.cons batch (.nil _))⟩
  · exact Option.some_ne_none overlay
  · intro p overlay' found flagged
    obtain ⟨-, rfl⟩ := oneFile_lookup found
    cases flagged

/-- A deletion leaves the flag of an open file set. -/
theorem deletion_keeps_flag : ∃ start final : World, ∃ changes, Batch pairHost start changes final ∧ start.Hashed pairHost ∧
    start.Faithful ∧ ¬ final.Faithful := by
  let overlay : Overlay := { newOverlay pairHost "a.ts" ['a'] 1 .ts with matchesDiskText := true }
  have batch : Batch pairHost (oneFile overlay (some ['a'])) [watchEvent .watchDelete "a.ts"] (oneFile overlay none) := by
    refine batch_oneFile rfl rfl rfl (fun result => ⟨result, ?_⟩) (.watch rfl (.delete ['a'])) rfl
    rfl
  refine ⟨_, _, _, batch, oneFile_hashed rfl, ?_, ?_⟩
  · intro p overlay' found _
    obtain ⟨-, rfl⟩ := oneFile_lookup found
    rfl
  · intro faithful
    cases faithful "a.ts" overlay Finmap.lookup_singleton_eq rfl

end TypeScriptRs.Project
