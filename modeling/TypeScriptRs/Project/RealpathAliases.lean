import TypeScriptRs.Lib.ReverseIndex
import TypeScriptRs.Project.DirectoryIndex

/-! The aliases of the real paths are those of the files, as long as none goes away. -/
namespace TypeScriptRs.Project.SnapshotFs
open Utf8 Paths Ancestors Option
open ReverseIndex (listed addName mem_listed_addName)

/-- A path is listed under the real path of its file, and nowhere else. -/
def AliasesExact (snapshot : Snapshot) : Prop := ∀ realpath path,
  path ∈ listed snapshot.nodeModulesRealpathAliases realpath ↔
    ∃ file, snapshot.diskFiles.lookup path = some file ∧ file.realpathPath = realpath ∧ realpath ≠ []

def recorded (entry : Option DiskFile) : Option Text := (entry.map DiskFile.realpathPath).filter (· ≠ [])

theorem recorded_eq_some {entry : Option DiskFile} {realpath : Text} : recorded entry = some realpath ↔
    ∃ file, entry = some file ∧ file.realpathPath = realpath ∧ realpath ≠ [] := by
  cases entry with
  | none => simp [recorded]
  | some file =>
    simp only [recorded, map_some, filter_eq_some_iff, decide_eq_true_eq, Option.some.injEq, exists_eq_left']

theorem recorded_congr {entry entry' : DiskFile} (same : entry.realpathPath = entry'.realpathPath) :
    recorded (some entry) = recorded (some entry') := by
  rw [recorded, recorded, map_some, map_some, same]

/-- Where a file leads that is asked for the first time, if this is looked at. -/
def link (toPath : Text → Text) (disk : Disk) (fileName path : Text) : Option Text :=
  if Builder.nodeModules <:+: path ∧ toPath (disk.realpath fileName) ≠ path then some (toPath (disk.realpath fileName)) else none

def readable (disk : Disk) (fileName : Text) : Bool := fileName ≠ [] ∧ (disk.readFile fileName).isSome

namespace Builder

variable {Overlay : Type} {toPath : Text → Text} {disk : Disk} {b b' b₁ : Builder Overlay} {file entry : DiskFile}

section
variable (toPath disk) (b)

/-- A file that goes away has the real path that it had in the snapshot before. -/
def Leaves (path : Text) : Prop := recorded (b.value path) = recorded (b.base.lookup path)

/-- A file that is asked for the first time, or again after it went away: it leads where it led in the snapshot before, if it
was there and led elsewhere, and a new link can be read. -/
def Enters (fileName path : Text) : Prop :=
  match link toPath disk fileName path with
  | some realpath => realpath ≠ [] ∧
    (recorded (b.base.lookup path) = some realpath ∨ (recorded (b.base.lookup path) = none ∧ readable disk fileName = true))
  | none => recorded (b.base.lookup path) = none ∨ readable disk fileName = false

def Rereads (path : Text) (forceReload : Bool) : Prop :=
  ∀ entry, b.value path = some entry → forceReload = true ∨ entry.matchesDiskText = false → reloadEntry disk entry = none →
    b.Leaves path

def Gets (fileName path : Text) (forceReload : Bool) : Prop :=
  (b.value path = none → b.Enters toPath disk fileName path) ∧ b.Rereads disk path forceReload

/-- The files that an operation lets in or out may come and go. -/
def Careful : Operation → Prop
  | .getFile fileName => toPath fileName ∉ b.overlays → b.Gets toPath disk fileName (toPath fileName) false
  | .getFileByPath fileName path => path ∉ b.overlays → b.Gets toPath disk fileName path false
  | .fileExists _ path => path ∉ b.overlays → b.Rereads disk path false
  | .getDiskFile fileName path forceReload => b.Gets toPath disk fileName path forceReload
  | .invalidateCache _ => True
  | .invalidateNodeModulesCache _ => True
  | .markDirtyFiles _ deleted => ∀ fileName ∈ deleted, b.load (toPath fileName) = true → b.Leaves (toPath fileName)
  | .deleteEntry path => b.load path = true → b.Leaves path
end

/-- The real path that the builder has to have for a path: that of its file, or of the file before if it went away. -/
def held (b : Builder Overlay) (path : Text) : Option Text := recorded ((b.value path).or (b.base.lookup path))

def Tracks (b : Builder Overlay) : Prop :=
  ∀ realpath path, path ∈ listed b.nodeModulesRealpathAliases realpath ↔ b.held path = some realpath

/-- What a step changes is the entry of one path, and it adds a link for that path, if there is one. -/
structure Touches (path : Text) (link : Option Text) (b b' : Builder Overlay) : Prop where
  base : b'.base = b.base
  others : ∀ path', path' ≠ path → b'.value path' = b.value path'
  aliases : ∀ realpath path', path' ∈ listed b'.nodeModulesRealpathAliases realpath ↔
    path' ∈ listed b.nodeModulesRealpathAliases realpath ∨ (path' = path ∧ link = some realpath)

variable {path fileName : Text}

theorem Touches.trans {link : Option Text} (first : Touches path link b b₁) (second : Touches path none b₁ b') :
    Touches path link b b' where
  base := second.base.trans first.base
  others path' other := (second.others path' other).trans (first.others path' other)
  aliases realpath path' := by
    rw [second.aliases, first.aliases]
    simp

theorem Touches.tracks_iff {link : Option Text} (touches : Touches path link b b') (tracks : Tracks b) :
    Tracks b' ↔ ∀ realpath, (b.held path = some realpath ∨ link = some realpath) ↔ b'.held path = some realpath := by
  have here (realpath : Text) : path ∈ listed b'.nodeModulesRealpathAliases realpath ↔
      b.held path = some realpath ∨ link = some realpath := by
    rw [touches.aliases, tracks, and_iff_right rfl]
  constructor
  · exact fun after realpath => (here realpath).symm.trans (after realpath path)
  intro same realpath path'
  by_cases this : path' = path
  · rw [this, here]
    exact same realpath
  · have unchanged : b'.held path' = b.held path' := by rw [held, held, touches.others path' this, touches.base]
    rw [touches.aliases, tracks, unchanged]
    exact or_iff_left fun linked => this linked.1

theorem store_touches (file : DiskFile) : Touches path none b (b.store path file) where
  base := rfl
  others path' other := (value_insert path' _).trans (if_neg other)
  aliases := by simp [store]

theorem addAlias_touches (realpath : Text) : Touches path (some realpath) b
    { b with nodeModulesRealpathAliases := addName b.nodeModulesRealpathAliases realpath path } where
  base := rfl
  others _ _ := rfl
  aliases realpath' path' := by
    rw [mem_listed_addName, or_comm, Option.some.injEq, and_comm, @eq_comm Text realpath']

theorem delete_touches : Touches path none b (b.delete path) where
  base := rfl
  others path' other := (value_insert path' _).trans (if_neg other)
  aliases := by simp [delete]

theorem tracks_store (tracks : Tracks b) (found : b.value path = some entry)
    (same : file.realpathPath = entry.realpathPath) : Tracks (b.store path file) := by
  refine (store_touches file).tracks_iff tracks |>.mpr fun realpath => ?_
  have kept : (b.store path file).held path = b.held path := by
    rw [held, held, value_store, found]
    exact recorded_congr same
  rw [kept]
  simp

theorem tracks_delete (tracks : Tracks b) (present : b.load path = true) (leaves : b.Leaves path) : Tracks (b.delete path) := by
  obtain ⟨entry, found⟩ := isSome_iff_exists.mp present
  refine delete_touches.tracks_iff tracks |>.mpr fun realpath => ?_
  have kept : (b.delete path).held path = b.held path := by
    rw [held, held, value_delete, none_or, found]
    rw [Leaves, found] at leaves
    exact leaves.symm
  rw [kept]
  simp

theorem reloadEntry_realpathPath (read : reloadEntry disk entry = some file) : file.realpathPath = entry.realpathPath := by
  unfold reloadEntry at read
  split at read
  · cases read
  · obtain ⟨content, -, made⟩ := map_eq_some_iff.mp read
    rw [← made]

theorem tracks_reloaded (tracks : Tracks b) (found : b.value path = some entry)
    (leaves : reloadEntry disk entry = none → b.Leaves path) : Tracks (b.reloaded disk path entry).2 := by
  unfold reloaded
  split
  · rename_i file read
    exact tracks_store tracks found (reloadEntry_realpathPath read)
  · rename_i lost
    exact tracks_delete tracks (isSome_iff_exists.mpr ⟨entry, found⟩) (leaves lost)

theorem tracks_reloadEntryPath (tracks : Tracks b) (rereads : b.Rereads disk path true) :
    Tracks (b.reloadEntryPath disk path).2 := by
  unfold reloadEntryPath
  split
  · exact tracks
  · rename_i entry found
    exact tracks_reloaded tracks found (rereads entry found (.inl rfl))

theorem tracks_reloadEntryIfNeededPath (tracks : Tracks b) (rereads : b.Rereads disk path false) :
    Tracks (b.reloadEntryIfNeededPath disk path).2 := by
  unfold reloadEntryIfNeededPath
  split
  · exact tracks
  rename_i entry found
  split
  · exact tracks
  · rename_i stale
    exact tracks_reloaded tracks found (rereads entry found (.inr (Bool.eq_false_of_not_eq_true stale)))

def entered (toPath : Text → Text) (disk : Disk) (fileName path : Text) : DiskFile :=
  { newDiskFile fileName [] with needsReload := true, realpathPath := (link toPath disk fileName path).getD [] }

theorem recorded_entered : recorded (some (entered toPath disk fileName path)) = (link toPath disk fileName path).filter (· ≠ []) := by
  rw [recorded, map_some, entered]
  cases link toPath disk fileName path with
  | none => rfl
  | some realpath => rfl

theorem createEntry_entered (b : Builder Overlay) (fileName path : Text) :
    Touches path (link toPath disk fileName path) b (b.createEntry toPath disk fileName path) ∧
      (b.createEntry toPath disk fileName path).value path = some (entered toPath disk fileName path) := by
  by_cases linked : nodeModules <:+: path ∧ toPath (disk.realpath fileName) ≠ path
  · have leads : link toPath disk fileName path = some (toPath (disk.realpath fileName)) := if_pos linked
    rw [entered, leads]
    unfold createEntry recordRealpathAlias
    rw [if_pos linked.1, if_neg linked.2]
    exact ⟨((addAlias_touches _).trans (store_touches _)).trans (store_touches _), value_store _⟩
  have leads : link toPath disk fileName path = none := if_neg linked
  rw [entered, leads]
  unfold createEntry recordRealpathAlias
  by_cases inModules : nodeModules <:+: path
  · have same : toPath (disk.realpath fileName) = path := Decidable.of_not_not fun other => linked ⟨inModules, other⟩
    rw [if_pos inModules, if_pos same]
    exact ⟨(store_touches _).trans (store_touches _), value_store _⟩
  · rw [if_neg inModules]
    exact ⟨store_touches _, value_store _⟩

theorem isSome_reloadEntry (entry : DiskFile) : (reloadEntry disk entry).isSome = readable disk entry.fileName := by
  unfold reloadEntry readable
  split
  · rename_i unnamed
    simp [unnamed]
  · rename_i named
    simp [named]

theorem reloaded_entered (b : Builder Overlay) (fileName path : Text) :
    let after := ((b.createEntry toPath disk fileName path).reloaded disk path (entered toPath disk fileName path)).2
    Touches path (link toPath disk fileName path) b after ∧
      after.value path = reloadEntry disk (entered toPath disk fileName path) := by
  unfold reloaded
  split
  · rename_i file read
    exact ⟨(createEntry_entered b fileName path).1.trans (store_touches _), (value_store _).trans read.symm⟩
  · rename_i lost
    exact ⟨(createEntry_entered b fileName path).1.trans delete_touches, value_delete.trans lost.symm⟩

section
variable (tracks : Tracks b)
include tracks

theorem tracks_entered (absent : b.value path = none) (enters : b.Enters toPath disk fileName path) :
    Tracks ((b.createEntry toPath disk fileName path).reloaded disk path (entered toPath disk fileName path)).2 := by
  obtain ⟨touches, result⟩ := @reloaded_entered Overlay toPath disk b fileName path
  refine (touches.tracks_iff tracks).mpr fun realpath => ?_
  have before : b.held path = recorded (b.base.lookup path) := by rw [held, absent, none_or]
  rw [before, held, result, touches.base]
  have read := @isSome_reloadEntry disk (entered toPath disk fileName path)
  unfold Enters at enters
  cases reread : reloadEntry disk (entered toPath disk fileName path) with
  | none =>
    have unread : readable disk fileName = false := read.symm.trans (congrArg Option.isSome reread)
    cases leads : link toPath disk fileName path with
    | none => simp
    | some there =>
      simp only [leads, unread, Bool.false_eq_true, and_false, or_false] at enters
      simp [enters.2]
  | some file =>
    have found : readable disk fileName = true := read.symm.trans (congrArg Option.isSome reread)
    have same : recorded (some file) = recorded (some (entered toPath disk fileName path)) :=
      recorded_congr (reloadEntry_realpathPath reread)
    rw [some_or, same, recorded_entered]
    cases leads : link toPath disk fileName path with
    | none =>
      simp only [leads, found, Bool.true_eq_false, or_false] at enters
      simp [enters]
    | some there =>
      simp only [leads, found, and_true] at enters
      obtain ⟨real, old | new⟩ := enters
      all_goals rw [show (some there).filter (· ≠ []) = some there by simp [real]]
      · simp [old]
      · simp [new]

theorem tracks_getDiskFile {forceReload : Bool} (gets : b.Gets toPath disk fileName path forceReload) :
    Tracks (b.getDiskFile toPath disk fileName path forceReload).2 := by
  unfold getDiskFile
  dsimp only
  cases found : b.value path with
  | none =>
    have absent : ¬b.load path = true := by simp [load, found]
    have there := (@createEntry_entered Overlay toPath disk b fileName path).2
    have entering := tracks_entered tracks found (gets.1 found)
    split
    · simpa only [reloadEntryPath, there] using entering
    · have stale : ¬(entered toPath disk fileName path).matchesDiskText = true := Bool.false_ne_true
      simpa only [reloadEntryIfNeededPath, there, if_neg stale] using entering
  | some entry =>
    have present : b.load path = true := by simp [load, found]
    split
    · rename_i forced
      subst forced
      exact tracks_reloadEntryPath tracks gets.2
    · rename_i unforced
      rw [Bool.eq_false_of_not_eq_true unforced] at gets
      exact tracks_reloadEntryIfNeededPath tracks gets.2

theorem tracks_getFileByPath (gets : path ∉ b.overlays → b.Gets toPath disk fileName path false) :
    Tracks (b.getFileByPath toPath disk fileName path).2 := by
  unfold getFileByPath
  split
  · exact tracks
  · rename_i closed
    exact tracks_getDiskFile tracks (gets (Finmap.lookup_eq_none.mp closed))

theorem tracks_fileExists (rereads : path ∉ b.overlays → b.Rereads disk path false) :
    Tracks (b.fileExists disk fileName path).2 := by
  unfold fileExists
  split
  · exact tracks
  · rename_i closed
    split
    · exact tracks_reloadEntryIfNeededPath tracks (rereads closed)
    · exact tracks

theorem tracks_deleteEntry (leaves : b.load path = true → b.Leaves path) : Tracks (b.deleteEntry path) := by
  unfold deleteEntry
  split
  · rename_i present
    exact tracks_delete tracks present (leaves present)
  · exact tracks

theorem tracks_needReload (path : Text) : Tracks (b.needReload path) := by
  unfold needReload
  split
  · exact tracks
  · rename_i file found
    exact tracks_store tracks found rfl
end

theorem leaves_needReload (leaves : b.load path = true → b.Leaves path) (path' : Text) :
    (b.needReload path').load path = true → (b.needReload path').Leaves path := by
  have same : recorded ((b.needReload path').value path) = recorded (b.value path) := by
    rw [value_needReload]
    split
    · rename_i here
      subst here
      cases b.value path with
      | none => rfl
      | some file => exact recorded_congr rfl
    · rfl
  have present : (b.needReload path').load path = b.load path := by
    rw [load, load, value_needReload]
    split
    · rename_i here
      subst here
      exact isSome_map
    · rfl
  rw [present, Leaves, same, (needReload_keeps b path').base]
  exact leaves

theorem leaves_deleteEntry (leaves : b.load path = true → b.Leaves path) (path' : Text) :
    (b.deleteEntry path').load path = true → (b.deleteEntry path').Leaves path := by
  rw [load, Leaves, value_deleteEntry, (deleteEntry_keeps b path').base]
  split
  · exact fun present => absurd present Bool.false_ne_true
  · exact leaves

theorem tracks_markDirtyFiles (changed : List Text) {deleted : List Text} (tracks : Tracks b)
    (leaves : ∀ fileName ∈ deleted, b.load (toPath fileName) = true → b.Leaves (toPath fileName)) :
    Tracks (b.markDirtyFiles toPath changed deleted) := by
  have marked : let b' := changed.foldl (fun b fileName => b.needReload (toPath fileName)) b
      Tracks b' ∧ ∀ fileName ∈ deleted, b'.load (toPath fileName) = true → b'.Leaves (toPath fileName) := by
    refine List.foldlRecOn (motive := fun b => Tracks b ∧ ∀ fileName ∈ deleted, b.load (toPath fileName) = true →
      b.Leaves (toPath fileName)) changed _ ⟨tracks, leaves⟩ fun b so fileName _ => ?_
    exact ⟨tracks_needReload so.1 _, fun fileName' member => leaves_needReload (so.2 fileName' member) _⟩
  refine (List.foldlRecOn (motive := fun b => Tracks b ∧ ∀ fileName ∈ deleted, b.load (toPath fileName) = true →
    b.Leaves (toPath fileName)) deleted _ marked fun b so fileName member => ?_).1
  exact ⟨tracks_deleteEntry so.1 (so.2 fileName member), fun fileName' member' => leaves_deleteEntry (so.2 fileName' member') _⟩

theorem operate_tracks {operation : Operation} (tracks : Tracks b) (careful : b.Careful toPath disk operation)
    (ok : b.operate toPath disk operation = some b') : Tracks b' := by
  cases operation with
  | getFile fileName =>
    cases ok
    exact tracks_getFileByPath tracks careful
  | getFileByPath fileName path =>
    cases ok
    exact tracks_getFileByPath tracks careful
  | fileExists fileName path =>
    cases ok
    exact tracks_fileExists tracks careful
  | getDiskFile fileName path forceReload =>
    cases ok
    exact tracks_getDiskFile tracks careful
  | invalidateCache keys =>
    rw [operate] at ok
    split at ok
    · cases ok
      exact List.foldlRecOn keys _ tracks fun b so path _ => tracks_needReload so path
    · cases ok
  | invalidateNodeModulesCache keys =>
    rw [operate] at ok
    split at ok
    · cases ok
      refine List.foldlRecOn keys _ tracks fun b so path _ => ?_
      split
      · exact tracks_needReload so path
      · exact so
    · cases ok
  | markDirtyFiles changed deleted =>
    have same : b.markDirtyFiles toPath changed deleted = b' := some_injective _ ok
    rw [← same]
    exact tracks_markDirtyFiles changed tracks careful
  | deleteEntry path =>
    cases ok
    exact tracks_deleteEntry tracks careful

variable {aliases : HashMap Text (Finset Text)} {path realpath : Text}

theorem listed_removeAliasPath (aliases : HashMap Text (Finset Text)) (realpath path realpath' : Text) :
    listed (removeAliasPath aliases realpath path) realpath' =
      if realpath' = realpath then (listed aliases realpath).erase path else listed aliases realpath' := by
  unfold removeAliasPath listed
  cases found : aliases.lookup realpath with
  | none =>
    dsimp only
    split
    · rename_i here
      rw [here, found]
      rfl
    · rfl
  | some paths =>
    dsimp only
    split
    · rename_i last
      rw [HashMap.lookup_erase_if, getD_some, last]
      split
      · rfl
      · rfl
    · rw [HashMap.lookup_insert_if, getD_some]
      split
      · rfl
      · rfl

theorem mem_listed_dropAlias {path' : Text} : path' ∈ listed (b.dropAlias aliases path) realpath ↔
      path' ∈ listed aliases realpath ∧ ¬(path' = path ∧ recorded (b.base.lookup path') = some realpath) := by
  unfold dropAlias
  cases found : b.base.lookup path with
  | none =>
    refine (and_iff_left ?_).symm
    rintro ⟨rfl, held⟩
    rw [found] at held
    cases held
  | some file =>
    dsimp only
    split
    · rename_i unlinked
      refine (and_iff_left ?_).symm
      rintro ⟨rfl, held⟩
      rw [found] at held
      obtain ⟨file', same, rfl, linked⟩ := recorded_eq_some.mp held
      cases same
      exact linked unlinked
    rename_i linked
    have here : path' = path ∧ recorded (b.base.lookup path') = some realpath ↔ realpath = file.realpathPath ∧ path' = path := by
      constructor
      · rintro ⟨rfl, held⟩
        rw [found] at held
        obtain ⟨file', same, rfl, -⟩ := recorded_eq_some.mp held
        exact ⟨congrArg DiskFile.realpathPath (Option.some.inj same).symm, rfl⟩
      · rintro ⟨rfl, rfl⟩
        exact ⟨rfl, recorded_eq_some.mpr ⟨file, found, rfl, linked⟩⟩
    rw [here, listed_removeAliasPath]
    split
    · rename_i same
      rw [same, Finset.mem_erase, and_comm, and_iff_right rfl]
    · rename_i other
      rw [and_iff_left fun both => other both.1]

theorem mem_listed_dropAll (deleted : List Text) : path ∈ listed (deleted.foldl b.dropAlias aliases) realpath ↔
      path ∈ listed aliases realpath ∧ ¬(path ∈ deleted ∧ recorded (b.base.lookup path) = some realpath) := by
  induction deleted generalizing aliases with
  | nil => simp
  | cons first rest ih =>
    rw [List.foldl_cons, ih, mem_listed_dropAlias, List.mem_cons, and_assoc, or_and_right, not_or]

theorem finalize_aliases {entries : List Text} (tracks : Tracks b) (all : lists entries b.dirty.keys = true) :
    AliasesExact (b.finalize entries) := by
  intro realpath path
  rw [← recorded_eq_some]
  refine (mem_listed_dropAll (b.deletedOf entries)).trans ?_
  have files : (b.finalize entries).diskFiles.lookup path = b.value path := lookup_finalizeDiskFiles all path
  rw [mem_deletedOf all, tracks, files, held, value]
  cases b.dirty.lookup path with
  | none => simp
  | some entry =>
    cases entry with
    | none =>
      refine iff_of_false (fun both => both.2 ⟨rfl, both.1⟩) fun kept => ?_
      cases kept
    | some file => simp

end Builder

variable {Overlay : Type} {toPath : Text → Text}

def CarefulSession (toPath : Text → Text) (snapshot : Snapshot) (session : Session Overlay) : Prop :=
  Interleaving.Allowed (fun b call => b.operate toPath call.1 call.2) (fun b call => b.Careful toPath call.1 call.2)
    (Builder.new snapshot session.overlays) session.operations

theorem operateAll_tracks {b b' : Builder Overlay} {operations : List (Disk × Operation)} (tracks : b.Tracks)
    (careful : Interleaving.Allowed (fun b call => b.operate toPath call.1 call.2) (fun b call => b.Careful toPath call.1 call.2)
      b operations) (ok : b.operateAll toPath operations = some b') : b'.Tracks := by
  induction operations generalizing b with
  | nil =>
    cases ok
    exact tracks
  | cons call rest ih =>
    obtain ⟨b₁, ran, later⟩ := bind_eq_some_iff.mp ok
    exact ih (Builder.operate_tracks tracks careful.1 ran) (careful.2 b₁ ran) later

theorem tracks_new {snapshot : Snapshot} (exact_ : AliasesExact snapshot) (overlays : HashMap Text Overlay) :
    (Builder.new snapshot overlays).Tracks := by
  intro realpath path
  rw [Builder.held, Builder.value, recorded_eq_some]
  simpa [Builder.new] using exact_ realpath path

theorem step_aliases {snapshot snapshot' : Snapshot} {session : Session Overlay} (exact_ : AliasesExact snapshot)
    (careful : CarefulSession toPath snapshot session) (taken : step toPath snapshot session = some snapshot') :
    AliasesExact snapshot' := by
  obtain ⟨b, built, finalized⟩ := bind_eq_some_iff.mp taken
  split at finalized
  · rename_i all
    cases finalized
    exact Builder.finalize_aliases (operateAll_tracks (tracks_new exact_ session.overlays) careful built) all
  · cases finalized

theorem empty_aliases : AliasesExact Snapshot.empty := by
  intro realpath path
  simp [Snapshot.empty, listed]

/-- The aliases of every snapshot that careful sessions lead to. -/
theorem nodeModulesRealpathAliases_diskFiles {snapshot : Snapshot}
    (run : Interleaving.Reaches (step toPath : Snapshot → Session Overlay → Option Snapshot) (CarefulSession toPath)
      Snapshot.empty snapshot) : AliasesExact snapshot :=
  run.keeps AliasesExact empty_aliases fun _ _ _ exact_ careful taken => step_aliases exact_ careful taken

def linked : Text := "/p/node_modules/x/a.ts".toList

def target : Text := "/q/a.ts".toList

/-- A disk with a link, which leads to a file that can be read, or to one that cannot. -/
def linkedDisk (content : Option Text) : Disk where
  readFile name := if name = linked then content else none
  realpath name := if name = linked then target else name
  fileExists name := name = linked

def readingLink (content : Option Text) : Session Unit := ⟨∅, [(linkedDisk content, .getFile linked)], [linked]⟩

theorem nodeModulesRealpathAliases_diskFiles_readingLink : ∃ snapshot,
    step id Snapshot.empty (readingLink (some [])) = some snapshot ∧
      linked ∈ listed snapshot.nodeModulesRealpathAliases target ∧ AliasesExact snapshot := by
  have run : (step id Snapshot.empty (readingLink (some []))).map
      (fun snapshot => decide (linked ∈ listed snapshot.nodeModulesRealpathAliases target)) = some true := by decide +kernel
  obtain ⟨snapshot, taken, aliased⟩ := map_eq_some_iff.mp run
  have leads : link id (linkedDisk (some [])) linked linked = some target := by decide +kernel
  have careful : CarefulSession id Snapshot.empty (readingLink (some [])) := by
    refine ⟨fun _ => ⟨fun _ => ?_, fun entry found => ?_⟩, fun _ _ => trivial⟩
    · unfold Builder.Enters
      rw [id, leads]
      exact ⟨by decide, .inr ⟨rfl, by decide +kernel⟩⟩
    · cases found
  exact ⟨snapshot, taken, of_decide_eq_true aliased,
    nodeModulesRealpathAliases_diskFiles (.single ⟨readingLink (some []), careful, taken⟩)⟩

/-- The alias of a link that cannot be read stays, and there is no file for it. -/
theorem alias_of_unreadable_link : ¬∀ snapshot,
    Interleaving.Reaches (step id : Snapshot → Session Unit → Option Snapshot) (fun _ _ => True) Snapshot.empty snapshot →
    AliasesExact snapshot := by
  intro always
  have run : (step id Snapshot.empty (readingLink none)).map (fun snapshot =>
      (decide (linked ∈ listed snapshot.nodeModulesRealpathAliases target), snapshot.diskFiles.lookup linked)) =
      some (true, none) := by decide +kernel
  obtain ⟨snapshot, taken, facts⟩ := map_eq_some_iff.mp run
  obtain ⟨aliased, absent⟩ := Prod.mk.inj facts
  have exact_ := always snapshot (.single ⟨readingLink none, trivial, taken⟩)
  obtain ⟨file, found, -⟩ := (exact_ target linked).mp (of_decide_eq_true aliased)
  rw [absent] at found
  cases found

end TypeScriptRs.Project.SnapshotFs
