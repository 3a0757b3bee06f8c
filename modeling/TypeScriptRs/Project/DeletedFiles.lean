import TypeScriptRs.Lib.Countdown
import TypeScriptRs.Lsconv.DocumentUri
import TypeScriptRs.Project.DirectoryIndex

/-! A deleted directory stands for the cached files that the index has below it. -/
namespace TypeScriptRs.Project.SnapshotFs
open Utf8 Machine Paths Ancestors List Outcome
open Lsconv (fileName fileNameToDocumentUri)

namespace Builder

variable {Overlay : Type}

section
variable (toPath : Text → Text) (urlPath : Text → Option Text) (b : Builder Overlay)

def fromLastDot (path : Text) : Option Text :=
  if '.' ∈ path then some ('.' :: (path.reverse.takeWhile (· ≠ '.')).reverse) else none

def relevantExtensions : List Text :=
  [".js".toList, ".jsx".toList, ".mjs".toList, ".cjs".toList, ".ts".toList, ".tsx".toList, ".mts".toList, ".cts".toList,
    ".json".toList]

/-- What `is_relevant_file_name` asks of the name of a URI. -/
def isRelevant (fileName : Text) : Bool :=
  Lsconv.isDynamicFileName fileName || toPath fileName ∈ b.overlays ||
    match fromLastDot (toPath fileName) with
    | none => false
    | some extension => extension ∈ relevantExtensions

def isRelevantFileName (uri : Text) : Outcome Bool := do
  let fileName ← fileName urlPath uri
  pure (b.isRelevant toPath fileName)

def cachedUri (path : Text) : Outcome (List Text) :=
  match b.value path with
  | some file => do
    let uri ← fileNameToDocumentUri file.fileName
    pure [uri]
  | none => pure []

/-- The children of a directory are those of the index, in the order in which they are listed. Each call needs one unit of
fuel. -/
def collectFilesRecursive (order : Text → List Text) : Nat → Text → Outcome (List Text)
  | 0, _ => .err "out of fuel"
  | fuel + 1, dirPath =>
    if dirPath ∈ b.diskDirectories then do
      let files ← (order dirPath).mapM fun childPath => do
        let file ← b.cachedUri childPath
        let below ← collectFilesRecursive order fuel childPath
        pure (file ++ below)
      pure files.flatten
    else .ok []

def expandDeleted (order : Text → List Text) (fuel : Nat) (uri : Text) : Outcome (List Text) := do
  let fileName ← fileName urlPath uri
  if toPath fileName ∈ b.diskDirectories then b.collectFilesRecursive order fuel (toPath fileName)
  else do
    let relevant ← b.isRelevantFileName toPath urlPath uri
    pure (if relevant then [uri] else [])

def filterChanged (uri : Text) : Outcome (List Text) := do
  let relevant ← b.isRelevantFileName toPath urlPath uri
  pure (if relevant then [uri] else [])

/-- The changed and the deleted URIs, in the order in which they are listed. -/
def expandAndFilterWatchEvents (order : Text → List Text) (fuel : Nat) (changed deleted : List Text) :
    Outcome (List Text × List Text) := do
  let filteredDeleted ← deleted.mapM (b.expandDeleted toPath urlPath order fuel)
  let filteredChanged ← changed.mapM (b.filterChanged toPath urlPath)
  pure (filteredChanged.flatten, filteredDeleted.flatten)

/-- The events are expanded and filtered, and the files are marked. -/
def applyWatchEvents (order : Text → List Text) (fuel : Nat) (changed deleted : List Text) : Outcome (Builder Overlay) := do
  let (changed, deleted) ← b.expandAndFilterWatchEvents toPath urlPath order fuel changed deleted
  let changedNames ← changed.mapM (fileName urlPath)
  let deletedNames ← deleted.mapM (fileName urlPath)
  pure (b.markDirtyFiles toPath changedNames deletedNames)
end

variable {toPath : Text → Text} {urlPath : Text → Option Text} {b b' : Builder Overlay}

theorem value_needReloads (names : List Text) (path : Text) :
    (names.foldl (fun b name => b.needReload (toPath name)) b).value path =
      if path ∈ names.map toPath then (b.value path).map ({ · with needsReload := true }) else b.value path := by
  induction names generalizing b with
  | nil => rfl
  | cons name names ih =>
    rw [foldl_cons, ih, value_needReload]
    by_cases here : path = toPath name
    · subst here
      simp [Function.comp_def]
    · simp [here]

theorem value_deleteEntries (names : List Text) (path : Text) :
    (names.foldl (fun b name => b.deleteEntry (toPath name)) b).value path =
      if path ∈ names.map toPath then none else b.value path := by
  induction names generalizing b with
  | nil => rfl
  | cons name names ih =>
    rw [foldl_cons, ih, value_deleteEntry]
    by_cases here : path = toPath name
    · simp [here]
    · simp [here]

theorem value_markDirtyFiles (changed deleted : List Text) (path : Text) : (b.markDirtyFiles toPath changed deleted).value path =
      if path ∈ deleted.map toPath then none
      else if path ∈ changed.map toPath then (b.value path).map ({ · with needsReload := true }) else b.value path := by
  unfold markDirtyFiles
  rw [value_deleteEntries, value_needReloads]

section
variable {order : Text → List Text} {fuel : Nat} {paths paths' : Text → Prop} {uris : List Text}

def Orders (order : Text → List Text) (b : Builder Overlay) : Prop :=
  ∀ d entry, b.diskDirectories.lookup d = some entry → lists (order d) entry.keys = true

def Returns (toPath : Text → Text) (urlPath : Text → Option Text) (path : Text) (file : DiskFile) : Prop :=
  ∃ uri name, fileNameToDocumentUri file.fileName = .ok uri ∧ fileName urlPath uri = .ok name ∧ toPath name = path

def StandsFor (urlPath : Text → Option Text) (toPath : Text → Text) (uri path : Text) : Prop :=
  ∃ name, fileName urlPath uri = .ok name ∧ toPath name = path

/-- The URIs that are collected are those of the cached files of a set of paths. -/
structure Collects (toPath : Text → Text) (urlPath : Text → Option Text) (b : Builder Overlay) (paths : Text → Prop)
    (uris : List Text) : Prop where
  only : ∀ uri ∈ uris, ∃ path, paths path ∧ StandsFor urlPath toPath uri path
  all : ∀ path, paths path → b.load path = true → ∃ uri ∈ uris, StandsFor urlPath toPath uri path

theorem Collects.append {uris' : List Text} (first : Collects toPath urlPath b paths uris)
    (second : Collects toPath urlPath b paths' uris') :
    Collects toPath urlPath b (fun path => paths path ∨ paths' path) (uris ++ uris') where
  only := by
    intro uri listed
    rcases mem_append.mp listed with listed | listed
    · obtain ⟨path, inside, stands⟩ := first.only uri listed
      exact ⟨path, .inl inside, stands⟩
    · obtain ⟨path, inside, stands⟩ := second.only uri listed
      exact ⟨path, .inr inside, stands⟩
  all := by
    rintro path (inside | inside) present
    · obtain ⟨uri, listed, stands⟩ := first.all path inside present
      exact ⟨uri, mem_append_left _ listed, stands⟩
    · obtain ⟨uri, listed, stands⟩ := second.all path inside present
      exact ⟨uri, mem_append_right _ listed, stands⟩

theorem Collects.flatten {α : Type} {paths : α → Text → Prop} {uris : α → List Text} {as : List α}
    (each : ∀ a ∈ as, Collects toPath urlPath b (paths a) (uris a)) :
    Collects toPath urlPath b (fun path => ∃ a ∈ as, paths a path) (as.map uris).flatten where
  only := by
    intro uri listed
    obtain ⟨a, member, inside⟩ := mem_flatMap.mp listed
    obtain ⟨path, there, stands⟩ := (each a member).only uri inside
    exact ⟨path, ⟨a, member, there⟩, stands⟩
  all := by
    rintro path ⟨a, member, there⟩ present
    obtain ⟨uri, inside, stands⟩ := (each a member).all path there present
    exact ⟨uri, mem_flatMap.mpr ⟨a, member, inside⟩, stands⟩

theorem Collects.congr (collects : Collects toPath urlPath b paths uris)
    (wider : ∀ path, paths path → paths' path) (covered : ∀ path, paths' path → b.load path = true → paths path) :
    Collects toPath urlPath b paths' uris where
  only uri listed := by
    obtain ⟨path, inside, stands⟩ := collects.only uri listed
    exact ⟨path, wider path inside, stands⟩
  all path inside present := collects.all path (covered path inside present) present

def deeper (b : Builder Overlay) (path : Text) : Nat := (b.diskDirectories.keys.filter fun d => depth path ≤ depth d).card

theorem deeper_lt {d c : Text} (inside : d ∈ b.diskDirectories) (child : Child getDirectoryPath d c) : b.deeper c < b.deeper d := by
  have nearer := size_lt_of_child depth_getDirectoryPath child
  exact Countdown.card_lt (fun k below => by omega) (Finmap.mem_keys.mpr inside) (le_refl _) (by omega)

theorem cachedUri_collects (returns : ∀ path file, b.value path = some file → Returns toPath urlPath path file) (path : Text) :
    ∃ uris, b.cachedUri path = .ok uris ∧ Collects toPath urlPath b (· = path) uris := by
  unfold cachedUri
  cases found : b.value path with
  | none =>
    refine ⟨[], rfl, by simp, ?_⟩
    rintro path' rfl present
    rw [load, found] at present
    cases present
  | some file =>
    obtain ⟨uri, name, made, named, back⟩ := returns path file found
    refine ⟨[uri], ?_, ?_, ?_⟩
    · dsimp only
      rw [made]
      rfl
    · intro uri' listed
      rw [mem_singleton.mp listed]
      exact ⟨path, rfl, name, named, back⟩
    · rintro path' rfl -
      exact ⟨uri, mem_singleton_self uri, name, named, back⟩

theorem collectFilesRecursive_collects (indexes : Indexes getDirectoryPath b.diskDirectories fun path => b.load path = true)
    (orders : Orders order b) (returns : ∀ path file, b.value path = some file → Returns toPath urlPath path file) (d : Text)
    (enough : b.deeper d < fuel) :
    ∃ uris, b.collectFilesRecursive order fuel d = .ok uris ∧ Collects toPath urlPath b (Above getDirectoryPath d) uris := by
  induction fuel generalizing d with
  | zero => cases enough
  | succ fuel ih =>
    rw [collectFilesRecursive]
    split
    · rename_i inside
      obtain ⟨entry, found⟩ := Finmap.mem_iff.mp inside
      have children (c : Text) : c ∈ order d ↔ c ∈ entry := by
        rw [(lists_iff.mp (orders d entry found)).2 c, Finmap.mem_keys]
      have turn (c : Text) : ∃ uris, c ∈ order d → (do
          let file ← b.cachedUri c
          let below ← b.collectFilesRecursive order fuel c
          pure (file ++ below) : Outcome (List Text)) = .ok uris ∧
          Collects toPath urlPath b (fun path => path = c ∨ Above getDirectoryPath c path) uris := by
        by_cases listed : c ∈ order d
        · obtain ⟨file, here, collected⟩ := cachedUri_collects returns c
          have child := ((indexes.children d entry found c).mp ((children c).mp listed)).1
          obtain ⟨below, ran, collects⟩ := ih c (by
            have fewer : b.deeper c < b.deeper d := deeper_lt inside child
            omega)
          refine ⟨file ++ below, fun _ => ⟨?_, collected.append collects⟩⟩
          rw [here, ran]
          rfl
        · exact ⟨[], fun member => absurd member listed⟩
      choose uris ran using turn
      refine ⟨((order d).map uris).flatten, ?_, ?_⟩
      · rw [mapM_eq_ok fun c listed => (ran c listed).1]
        rfl
      refine (Collects.flatten fun c listed => (ran c listed).2).congr ?_ ?_
      · rintro path ⟨c, listed, same | above⟩
        · subst same
          exact .single ((indexes.children d entry found _).mp ((children _).mp listed)).1
        · exact .head ((indexes.children d entry found c).mp ((children c).mp listed)).1 above
      · intro path above present
        obtain ⟨c, child, below⟩ := Relation.TransGen.head'_iff.mp above
        refine ⟨c, (children c).mpr ((indexes.children d entry found c).mpr ⟨child, path, present, below⟩), ?_⟩
        exact (Relation.reflTransGen_iff_eq_or_transGen.mp below)
    · rename_i outside
      refine ⟨[], rfl, by simp, fun path above present => ?_⟩
      exact absurd ((indexes.directories d).mpr ⟨path, present, above⟩) outside

/-- The paths of the cached files that a deletion reaches: those below the path, and the path itself if its name is relevant
and it is no directory of cached files. -/
def Reached (toPath : Text → Text) (b : Builder Overlay) (name path : Text) : Prop :=
  Above getDirectoryPath (toPath name) path ∨
    path = toPath name ∧ b.isRelevant toPath name = true ∧ toPath name ∉ b.diskDirectories

theorem expandDeleted_collects (indexes : Indexes getDirectoryPath b.diskDirectories fun path => b.load path = true)
    (orders : Orders order b) (returns : ∀ path file, b.value path = some file → Returns toPath urlPath path file)
    (enough : b.diskDirectories.keys.card < fuel) {uri name : Text} (named : fileName urlPath uri = .ok name) :
    ∃ uris, b.expandDeleted toPath urlPath order fuel uri = .ok uris ∧ Collects toPath urlPath b (b.Reached toPath name) uris := by
  unfold expandDeleted isRelevantFileName
  rw [named]
  simp only [monad_bind, bind_ok, monad_pure]
  split
  · rename_i inside
    have few : b.deeper (toPath name) < fuel := Nat.lt_of_le_of_lt (Finset.card_filter_le _ _) enough
    obtain ⟨uris, ran, collects⟩ := collectFilesRecursive_collects indexes orders returns (toPath name) few
    refine ⟨uris, ran, collects.congr (fun path above => .inl above) ?_⟩
    rintro path (above | ⟨-, -, outside⟩) _
    · exact above
    · exact absurd inside outside
  rename_i outside
  have none_ (path : Text) (above : Above getDirectoryPath (toPath name) path) (present : b.load path = true) : False :=
    outside ((indexes.directories _).mpr ⟨path, present, above⟩)
  cases relevant : b.isRelevant toPath name with
  | true =>
    refine ⟨[uri], rfl, ?_, ?_⟩
    · intro uri' listed
      rw [mem_singleton.mp listed]
      exact ⟨toPath name, .inr ⟨rfl, relevant, outside⟩, name, named, rfl⟩
    · rintro path (above | ⟨rfl, -⟩) present
      · exact (none_ path above present).elim
      · exact ⟨uri, mem_singleton_self uri, name, named, rfl⟩
  | false =>
    refine ⟨[], rfl, by simp, ?_⟩
    rintro path (above | ⟨-, now, -⟩) present
    · exact (none_ path above present).elim
    · rw [relevant] at now
      cases now
end

variable {order : Text → List Text} {fuel : Nat} {changed deleted : List Text}

def Usable (b : Builder Overlay) (path : Text) : Prop := ∃ file, b.value path = some file ∧ file.matchesDiskText = true

structure Applies (toPath : Text → Text) (urlPath : Text → Option Text) (b : Builder Overlay) (changed deleted : List Text)
    (b' : Builder Overlay) : Prop where
  gone : ∀ uri ∈ deleted, ∀ name, fileName urlPath uri = .ok name → ∀ path, b.Reached toPath name path → ¬b'.Usable path
  others : ∀ path, (∀ uri ∈ deleted, ∀ name, fileName urlPath uri = .ok name → ¬Within getDirectoryPath (toPath name) path) →
    (∀ uri ∈ changed, ∀ name, fileName urlPath uri = .ok name → toPath name ≠ path) → b'.value path = b.value path

theorem reached_within {name path : Text} (reached : b.Reached toPath name path) : Within getDirectoryPath (toPath name) path := by
  rcases reached with above | ⟨rfl, -⟩
  · exact above.to_reflTransGen
  · exact .refl

theorem applyWatchEvents_applies (indexes : Indexes getDirectoryPath b.diskDirectories fun path => b.load path = true)
    (orders : Orders order b) (returns : ∀ path file, b.value path = some file → Returns toPath urlPath path file)
    (enough : b.diskDirectories.keys.card < fuel) (named : ∀ uri ∈ changed ++ deleted, ∃ name, fileName urlPath uri = .ok name) :
    ∃ b', b.applyWatchEvents toPath urlPath order fuel changed deleted = .ok b' ∧
      Applies toPath urlPath b changed deleted b' := by
  choose! nameOf names using named
  have expanded (uri : Text) : ∃ uris, uri ∈ deleted → b.expandDeleted toPath urlPath order fuel uri = .ok uris ∧
      Collects toPath urlPath b (b.Reached toPath (nameOf uri)) uris := by
    by_cases listed : uri ∈ deleted
    · obtain ⟨uris, ran, collects⟩ :=
        expandDeleted_collects indexes orders returns enough (names uri (mem_append_right _ listed))
      exact ⟨uris, fun _ => ⟨ran, collects⟩⟩
    · exact ⟨[], fun member => absurd member listed⟩
  choose uris ran using expanded
  have collected := Collects.flatten fun uri listed => (ran uri listed).2
  -- the changed URIs that are kept
  let kept : Text → List Text := fun uri => if b.isRelevant toPath (nameOf uri) then [uri] else []
  have filtered (uri : Text) (listed : uri ∈ changed) : b.filterChanged toPath urlPath uri = .ok (kept uri) := by
    unfold filterChanged isRelevantFileName
    rw [names uri (mem_append_left _ listed)]
    rfl
  have stillChanged (uri : Text) (listed : uri ∈ (changed.map kept).flatten) : uri ∈ changed := by
    rw [← flatMap_def] at listed
    obtain ⟨uri', member, inside⟩ := mem_flatMap.mp listed
    dsimp only [kept] at inside
    split at inside
    · rwa [mem_singleton.mp inside]
    · cases inside
  have finalNames (uri : Text) (listed : uri ∈ (deleted.map uris).flatten) : ∃ name, fileName urlPath uri = .ok name := by
    obtain ⟨path, -, name, made, -⟩ := collected.only uri listed
    exact ⟨name, made⟩
  choose! deletedName deletedNames using finalNames
  refine ⟨b.markDirtyFiles toPath (((changed.map kept).flatten).map nameOf) (((deleted.map uris).flatten).map deletedName), ?_, ?_, ?_⟩
  · unfold applyWatchEvents expandAndFilterWatchEvents
    rw [mapM_eq_ok fun uri listed => (ran uri listed).1, mapM_eq_ok filtered]
    simp only [monad_bind, bind_ok, monad_pure]
    rw [mapM_eq_ok fun uri listed => names uri (mem_append_left _ (stillChanged uri listed)),
      mapM_eq_ok deletedNames]
    rfl
  · rintro uri listed name named path reached ⟨file, found, -⟩
    rw [names uri (mem_append_right _ listed)] at named
    obtain rfl := Outcome.ok.inj named
    rw [value_markDirtyFiles] at found
    split at found
    · cases found
    rename_i left
    have present : b.load path = true := by
      rw [load]
      split at found
      · obtain ⟨file', before, -⟩ := Option.map_eq_some_iff.mp found
        rw [before, Option.isSome_some]
      · rw [found, Option.isSome_some]
    obtain ⟨uri', inside, name, made, back⟩ := collected.all path ⟨uri, listed, reached⟩ present
    have same := deletedNames uri' inside
    rw [made] at same
    exact left (mem_map.mpr ⟨name, mem_map.mpr ⟨uri', inside, (Outcome.ok.inj same).symm⟩, back⟩)
  · intro path away unchanged
    rw [value_markDirtyFiles, if_neg, if_neg]
    · intro listed
      obtain ⟨name, member, back⟩ := mem_map.mp listed
      obtain ⟨uri, inside, rfl⟩ := mem_map.mp member
      have before := stillChanged uri inside
      exact unchanged uri before _ (names uri (mem_append_left _ before)) back
    intro listed
    obtain ⟨name, member, back⟩ := mem_map.mp listed
    obtain ⟨uri', inside, rfl⟩ := mem_map.mp member
    obtain ⟨path', ⟨uri, there, reached⟩, name, made, back'⟩ := collected.only uri' inside
    rw [deletedNames uri' inside] at made
    obtain rfl := Outcome.ok.inj made
    obtain rfl := back'.symm.trans back
    exact away uri there _ (names uri (mem_append_right _ there)) (reached_within reached)

end Builder

variable {Overlay : Type} {toPath : Text → Text} {urlPath : Text → Option Text} {order : Text → List Text} {fuel : Nat}
  {changed deleted : List Text}

/-- The watch events of a snapshot that sessions lead to. -/
theorem watchEvents_apply {snapshot : Snapshot} (run : Interleaving.Reaches
      (step toPath : Snapshot → Session Overlay → Option Snapshot) (Permitted toPath) Snapshot.empty snapshot)
    (overlays : HashMap Text Overlay) (orders : (Builder.new snapshot overlays).Orders order)
    (returns : ∀ path file, snapshot.diskFiles.lookup path = some file → Builder.Returns toPath urlPath path file)
    (enough : snapshot.diskDirectories.keys.card < fuel) (named : ∀ uri ∈ changed ++ deleted, ∃ name, fileName urlPath uri = .ok name) :
    ∃ b', (Builder.new snapshot overlays).applyWatchEvents toPath urlPath order fuel changed deleted = .ok b' ∧
      (Builder.new snapshot overlays).Applies toPath urlPath changed deleted b' := by
  have value (path : Text) : (Builder.new snapshot overlays).value path = snapshot.diskFiles.lookup path := rfl
  have indexes := diskDirectories_index_diskFiles run
  refine Builder.applyWatchEvents_applies ?_ orders (fun path file found => returns path file ((value path).symm.trans found)) enough named
  have same : (fun path => (Builder.new snapshot overlays).load path = true) = (· ∈ snapshot.diskFiles) := by
    funext path
    exact propext Finmap.lookup_isSome
  rw [same]
  exact indexes

theorem exists_orders (b : Builder Overlay) : ∃ order, b.Orders order := by
  refine ⟨fun d => ((b.diskDirectories.lookup d).map fun entry => entry.keys.toList).getD [], fun d entry found => ?_⟩
  dsimp only
  rw [found, Option.map_some, Option.getD_some, Builder.lists_iff]
  exact ⟨Finset.nodup_toList _, fun k => Finset.mem_toList⟩

def pathOfFileUrl (uri : Text) : Option Text := some (uri.drop 7)

theorem watchEvents_apply_directory : ∃ snapshot order b', step id Snapshot.empty (reading file) = some snapshot ∧
    (Builder.new snapshot (∅ : HashMap Text Unit)).applyWatchEvents id pathOfFileUrl order
      (snapshot.diskDirectories.keys.card + 1) [] ["file:///a".toList] = .ok b' ∧ file ∈ snapshot.diskFiles ∧ ¬b'.Usable file := by
  have run : (step id Snapshot.empty (reading file)).map (fun snapshot => snapshot.diskFiles) =
      some (Finmap.singleton file (newDiskFile file [])) := by decide +kernel
  obtain ⟨snapshot, taken, files⟩ := Option.map_eq_some_iff.mp run
  obtain ⟨order, orders⟩ := exists_orders (Builder.new snapshot (∅ : HashMap Text Unit))
  have returns (path : Text) (cached : DiskFile) (found : snapshot.diskFiles.lookup path = some cached) :
      Builder.Returns id pathOfFileUrl path cached := by
    rw [files] at found
    have here : path = file := Finmap.mem_singleton _ _ _ |>.mp (Finmap.mem_of_lookup_eq_some found)
    subst here
    obtain rfl := Option.some.inj found
    exact ⟨"file:///a/b/c.ts".toList, file, by decide +kernel, by decide +kernel, rfl⟩
  have name : fileName pathOfFileUrl "file:///a".toList = .ok "/a".toList := by decide +kernel
  have named : ∀ uri ∈ ([] : List Text) ++ ["file:///a".toList], ∃ name, fileName pathOfFileUrl uri = .ok name := by
    intro uri listed
    rw [nil_append, mem_singleton] at listed
    rw [listed]
    exact ⟨_, name⟩
  obtain ⟨b', ran, applies⟩ := watchEvents_apply (.single ⟨reading file, permitted_reading, taken⟩) ∅ orders returns
    (Nat.lt_succ_self _) named
  refine ⟨snapshot, order, b', taken, ran, ?_, applies.gone _ (mem_singleton_self _) _ name file (.inl ?_)⟩
  · rw [files]
    exact (Finmap.mem_singleton _ _ _).mpr rfl
  · exact .head ⟨show getDirectoryPath directory = "/a".toList by decide +kernel, by decide⟩
      (.single ⟨show getDirectoryPath file = directory by decide +kernel, by decide⟩)

def notes : Text := "/a/notes.txt".toList

/-- A deleted file stays usable when its name is not relevant. -/
theorem irrelevant_file_kept : ¬∀ (snapshot : Snapshot) (order : Text → List Text) (changed deleted : List Text) (b' : Builder Unit),
    Interleaving.Reaches (step id : Snapshot → Session Unit → Option Snapshot) (fun _ _ => True) Snapshot.empty snapshot →
    (Builder.new snapshot (∅ : HashMap Text Unit)).Orders order →
    (Builder.new snapshot ∅).applyWatchEvents id pathOfFileUrl order (snapshot.diskDirectories.keys.card + 1) changed deleted =
      .ok b' →
    ∀ uri ∈ deleted, ∀ name, fileName pathOfFileUrl uri = .ok name → ∀ path, Within getDirectoryPath name path → ¬b'.Usable path := by
  intro always
  let session : Session Unit := ⟨∅, [(diskOf notes, .getFile notes)], [notes]⟩
  have run : (step id Snapshot.empty session).map
      (fun snapshot => (snapshot.diskFiles.lookup notes, decide (notes ∈ snapshot.diskDirectories))) =
      some (some (newDiskFile notes []), false) := by decide +kernel
  obtain ⟨snapshot, taken, facts⟩ := Option.map_eq_some_iff.mp run
  obtain ⟨cached, outside⟩ := Prod.mk.inj facts
  obtain ⟨order, orders⟩ := exists_orders (Builder.new snapshot (∅ : HashMap Text Unit))
  have named : fileName pathOfFileUrl "file:///a/notes.txt".toList = .ok notes := by decide +kernel
  have irrelevant : (Builder.new snapshot (∅ : HashMap Text Unit)).isRelevant id notes = false := by
    have extension : Builder.fromLastDot notes = some ".txt".toList := by decide +kernel
    have closed : notes ∉ (Builder.new snapshot (∅ : HashMap Text Unit)).overlays := Finmap.notMem_empty
    unfold Builder.isRelevant
    rw [id, extension, decide_eq_false closed]
    decide +kernel
  have ran : (Builder.new snapshot (∅ : HashMap Text Unit)).applyWatchEvents id pathOfFileUrl order
      (snapshot.diskDirectories.keys.card + 1) [] ["file:///a/notes.txt".toList] = .ok (Builder.new snapshot ∅) := by
    have expanded : (Builder.new snapshot (∅ : HashMap Text Unit)).expandDeleted id pathOfFileUrl order
        (snapshot.diskDirectories.keys.card + 1) "file:///a/notes.txt".toList = .ok [] := by
      unfold Builder.expandDeleted Builder.isRelevantFileName
      rw [named]
      simp only [monad_bind, bind_ok, monad_pure, irrelevant]
      exact if_neg (of_decide_eq_false outside)
    unfold Builder.applyWatchEvents Builder.expandAndFilterWatchEvents
    rw [mapM_cons, expanded]
    rfl
  exact always snapshot order [] ["file:///a/notes.txt".toList] _ (.single ⟨session, trivial, taken⟩) orders ran _
    (mem_singleton_self _) notes named notes .refl ⟨_, cached, rfl⟩

end TypeScriptRs.Project.SnapshotFs
