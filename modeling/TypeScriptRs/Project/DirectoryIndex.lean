import TypeScriptRs.Project.SnapshotFs

/-! The directory index of a snapshot is that of its files. -/
namespace TypeScriptRs.Project.SnapshotFs
open Utf8 Paths Ancestors List

namespace Builder

variable {Overlay : Type} {b b' b₁ : Builder Overlay} {toPath : Text → Text} {disk : Disk}

structure Keeps (b b' : Builder Overlay) : Prop where
  base : b'.base = b.base
  diskDirectories : b'.diskDirectories = b.diskDirectories

theorem Keeps.refl (b : Builder Overlay) : Keeps b b := ⟨rfl, rfl⟩

theorem Keeps.trans (first : Keeps b b₁) (second : Keeps b₁ b') : Keeps b b' :=
  ⟨second.base.trans first.base, second.diskDirectories.trans first.diskDirectories⟩

theorem store_keeps (b : Builder Overlay) (key : Text) (file : DiskFile) : Keeps b (b.store key file) := ⟨rfl, rfl⟩

theorem delete_keeps (b : Builder Overlay) (key : Text) : Keeps b (b.delete key) := ⟨rfl, rfl⟩

theorem foldl_keeps {α : Type} {f : Builder Overlay → α → Builder Overlay} (each : ∀ b a, Keeps b (f b a)) (as : List α)
    (b : Builder Overlay) : Keeps b (as.foldl f b) := by
  induction as generalizing b with
  | nil => exact .refl b
  | cons a as ih => exact (each b a).trans (ih (f b a))

theorem recordRealpathAlias_keeps (b : Builder Overlay) (file : DiskFile) (symlinkFileName symlinkPath : Text) :
    Keeps b (b.recordRealpathAlias toPath disk file symlinkFileName symlinkPath).2 := by
  unfold recordRealpathAlias
  dsimp only
  split
  · exact .refl b
  · exact ⟨rfl, rfl⟩

theorem createEntry_keeps (b : Builder Overlay) (fileName path : Text) : Keeps b (b.createEntry toPath disk fileName path) := by
  unfold createEntry
  dsimp only
  split
  · exact ((store_keeps b path _).trans (recordRealpathAlias_keeps _ _ fileName path)).trans (store_keeps _ path _)
  · exact store_keeps b path _

theorem reloaded_keeps (b : Builder Overlay) (path : Text) (entry : DiskFile) : Keeps b (b.reloaded disk path entry).2 := by
  unfold reloaded
  split
  · exact store_keeps b path _
  · exact delete_keeps b path

theorem reloadEntryPath_keeps (b : Builder Overlay) (path : Text) : Keeps b (b.reloadEntryPath disk path).2 := by
  unfold reloadEntryPath
  split
  · exact .refl b
  · exact reloaded_keeps b path _

theorem reloadEntryIfNeededPath_keeps (b : Builder Overlay) (path : Text) : Keeps b (b.reloadEntryIfNeededPath disk path).2 := by
  unfold reloadEntryIfNeededPath
  split
  · exact .refl b
  · split
    · exact .refl b
    · exact reloaded_keeps b path _

theorem getDiskFile_keeps (b : Builder Overlay) (fileName path : Text) (forceReload : Bool) :
    Keeps b (b.getDiskFile toPath disk fileName path forceReload).2 := by
  have created : Keeps b (if b.load path then b else b.createEntry toPath disk fileName path) := by
    split
    · exact .refl b
    · exact createEntry_keeps b fileName path
  unfold getDiskFile
  dsimp only
  split
  · exact created.trans (reloadEntryPath_keeps _ path)
  · exact created.trans (reloadEntryIfNeededPath_keeps _ path)

theorem getFileByPath_keeps (b : Builder Overlay) (fileName path : Text) :
    Keeps b (b.getFileByPath toPath disk fileName path).2 := by
  unfold getFileByPath
  split
  · exact .refl b
  · exact getDiskFile_keeps b fileName path false

theorem fileExists_keeps (b : Builder Overlay) (fileName path : Text) : Keeps b (b.fileExists disk fileName path).2 := by
  unfold fileExists
  split
  · exact .refl b
  · split
    · exact reloadEntryIfNeededPath_keeps b path
    · exact .refl b

theorem needReload_keeps (b : Builder Overlay) (path : Text) : Keeps b (b.needReload path) := by
  unfold needReload
  split
  · exact .refl b
  · exact store_keeps b path _

theorem deleteEntry_keeps (b : Builder Overlay) (path : Text) : Keeps b (b.deleteEntry path) := by
  unfold deleteEntry
  split
  · exact delete_keeps b path
  · exact .refl b

theorem operate_keeps {operation : Operation} (ok : b.operate toPath disk operation = some b') : Keeps b b' := by
  cases operation with
  | getFile fileName =>
    cases ok
    exact getFileByPath_keeps b fileName _
  | getFileByPath fileName path =>
    cases ok
    exact getFileByPath_keeps b fileName path
  | fileExists fileName path =>
    cases ok
    exact fileExists_keeps b fileName path
  | getDiskFile fileName path forceReload =>
    cases ok
    exact getDiskFile_keeps b fileName path forceReload
  | invalidateCache keys =>
    rw [operate] at ok
    split at ok
    · cases ok
      exact foldl_keeps needReload_keeps keys b
    · cases ok
  | invalidateNodeModulesCache keys =>
    rw [operate] at ok
    split at ok
    · cases ok
      refine foldl_keeps (fun b path => ?_) keys b
      split
      · exact needReload_keeps b path
      · exact .refl b
    · cases ok
  | markDirtyFiles changed deleted =>
    have same : b.markDirtyFiles toPath changed deleted = b' := Option.some_injective _ ok
    rw [← same]
    exact (foldl_keeps (fun b fileName => needReload_keeps b (toPath fileName)) changed b).trans
      (foldl_keeps (fun b fileName => deleteEntry_keeps b (toPath fileName)) deleted _)
  | deleteEntry path =>
    cases ok
    exact deleteEntry_keeps b path

theorem operateAll_keeps {operations : List (Disk × Operation)} (ok : b.operateAll toPath operations = some b') : Keeps b b' := by
  induction operations generalizing b with
  | nil =>
    cases ok
    exact .refl _
  | cons first rest ih =>
    obtain ⟨disk, operation⟩ := first
    obtain ⟨b₁, ran, later⟩ := Option.bind_eq_some_iff.mp ok
    exact (operate_keeps ran).trans (ih later)

section
variable {path : Text}

theorem value_insert (path' : Text) (entry : Option DiskFile) :
    { b with dirty := b.dirty.insert path entry }.value path' = if path' = path then entry else b.value path' := by
  unfold value
  rw [HashMap.lookup_insert_if]
  by_cases here : path' = path
  · simp [here]
  · simp [here]

theorem value_store (file : DiskFile) : (b.store path file).value path = some file := (value_insert path _).trans (if_pos rfl)

theorem value_delete : (b.delete path).value path = none := (value_insert path _).trans (if_pos rfl)

theorem value_needReload (path' : Text) : (b.needReload path).value path' =
    if path' = path then (b.value path).map ({ · with needsReload := true }) else b.value path' := by
  unfold needReload
  split
  · rename_i absent
    split
    · rename_i here
      rw [here, absent, Option.map_none]
    · rfl
  · rename_i file found
    rw [found]
    exact value_insert path' _

theorem value_deleteEntry (path' : Text) : (b.deleteEntry path).value path' = if path' = path then none else b.value path' := by
  unfold deleteEntry
  split
  · exact value_insert path' none
  rename_i absent
  split
  · rename_i here
    rw [here]
    exact Option.not_isSome_iff_eq_none.mp absent
  · rfl
end

variable {entries : List Text} {path : Text} {directories : Index Text Text}

theorem lists_iff {keys : List Text} {all : Finset Text} : lists keys all = true ↔ keys.Nodup ∧ ∀ k, k ∈ keys ↔ k ∈ all := by
  rw [lists, decide_eq_true_iff]
  refine and_congr_right fun _ => ⟨?_, fun same => Finset.ext fun k => ?_⟩
  · rintro rfl k
    exact mem_toFinset.symm
  · rw [mem_toFinset, same]

theorem lookup_finalizeFold (entries : List Text) (files : HashMap Text DiskFile) (path : Text) :
    (entries.foldl b.finalizeEntry files).lookup path =
      if path ∈ entries then (b.dirty.lookup path).join else files.lookup path := by
  induction entries generalizing files with
  | nil => simp
  | cons first rest ih =>
    rw [foldl_cons, ih]
    by_cases later : path ∈ rest
    · simp [later]
    by_cases here : path = first
    · subst here
      rw [if_neg later, if_pos mem_cons_self, finalizeEntry]
      split
      · rename_i file stored
        rw [stored, Finmap.lookup_insert]
        rfl
      rename_i other
      rw [Finmap.lookup_erase]
      cases found : b.dirty.lookup path with
      | none => rfl
      | some stored =>
        cases stored with
        | none => rfl
        | some file => exact absurd found (other file)
    · rw [if_neg later, if_neg (by simp [here, later]), finalizeEntry]
      split
      · exact Finmap.lookup_insert_of_ne _ here
      · exact Finmap.lookup_erase_ne here

section
variable (listed : lists entries b.dirty.keys = true)
include listed

theorem lookup_finalizeDiskFiles (path : Text) : (b.finalizeDiskFiles entries).lookup path = b.value path := by
  rw [finalizeDiskFiles, lookup_finalizeFold, value]
  have known := (lists_iff.mp listed).2 path
  split
  · rename_i inside
    obtain ⟨stored, found⟩ := Finmap.mem_iff.mp (known.mp inside)
    rw [found]
    rfl
  · rename_i outside
    rw [Finmap.lookup_eq_none.mpr fun inside => outside (known.mpr inside)]

theorem mem_deletedOf : path ∈ b.deletedOf entries ↔ b.dirty.lookup path = some none := by
  rw [deletedOf, mem_filter, decide_eq_true_iff, and_iff_right_iff_imp]
  intro gone
  exact ((lists_iff.mp listed).2 path).mpr (Finmap.mem_keys.mpr (Finmap.mem_of_lookup_eq_some gone))

theorem mem_addedOf :
    path ∈ (b.addedOf entries).map Prod.fst ↔ (∃ file, b.dirty.lookup path = some (some file)) ∧ path ∉ b.base := by
  rw [mem_map]
  constructor
  · rintro ⟨⟨path', file⟩, member, rfl⟩
    obtain ⟨entry, -, made⟩ := mem_filterMap.mp member
    split at made
    · rename_i file' stored
      split at made
      · cases made
      · rename_i fresh
        cases made
        exact ⟨⟨file, stored⟩, fresh⟩
    · cases made
  · rintro ⟨⟨file, stored⟩, fresh⟩
    refine ⟨(path, file), mem_filterMap.mpr ⟨path, ?_, ?_⟩, rfl⟩
    · exact ((lists_iff.mp listed).2 path).mpr (Finmap.mem_keys.mpr (Finmap.mem_of_lookup_eq_some stored))
    · rw [stored]
      exact if_neg fresh
end

theorem addAll_indexes (added : List (Text × DiskFile)) {files : Text → Prop}
    (indexes : Indexes getDirectoryPath directories files) :
    Indexes getDirectoryPath (added.foldl (fun directories file => onAddedFile directories file.1 file.2.fileName) directories)
      fun f => f ∈ added.map Prod.fst ∨ files f := by
  induction added generalizing directories files with
  | nil => simpa using indexes
  | cons file added ih =>
    have one := indexes.add depth_getDirectoryPath getDirectoryPath getBaseFileName (p := file.1) (m := file.2.fileName)
      (Nat.lt_succ_self _)
    have all := ih one
    simp only [map_cons, mem_cons, or_assoc]
    simp only [or_left_comm] at all ⊢
    exact all

theorem removeAll_shrinking (deleted : List Text) {kept : Text → Prop}
    (shrinking : Shrinking getDirectoryPath directories kept (· ∈ deleted))
    (unused : ∀ p ∈ deleted, getDirectoryPath p ≠ p → ∀ f, kept f → ¬Within getDirectoryPath p f) :
    Shrinking getDirectoryPath (deleted.foldl onDeletedFileOrDirectory directories) kept fun _ => False := by
  induction deleted generalizing directories with
  | nil => simpa using shrinking
  | cons p deleted ih =>
    refine ih ?_ fun q member => unused q (mem_cons_of_mem _ member)
    have both : Shrinking getDirectoryPath directories kept fun f => f = p ∨ f ∈ deleted := by
      simpa only [mem_cons] using shrinking
    exact both.remove (unused p mem_cons_self) (Nat.lt_succ_self _)

/-- No deleted path is a directory of the files that stay, and each of these that was a directory too is still one.
Roots are listed nowhere and do not matter. -/
structure Apart (b : Builder Overlay) : Prop where
  deleted : ∀ p f, b.dirty.lookup p = some none → getDirectoryPath p ≠ p → b.load f = true → ¬Above getDirectoryPath p f
  kept : ∀ d f, b.load d = true → getDirectoryPath d ≠ d → f ∈ b.base → Above getDirectoryPath d f →
    ∃ f', b.load f' = true ∧ Above getDirectoryPath d f'

theorem finalize_indexes (indexes : Indexes getDirectoryPath b.diskDirectories (· ∈ b.base)) (apart : Apart b)
    (listed : lists entries b.dirty.keys = true) :
    Indexes getDirectoryPath (b.finalize entries).diskDirectories (· ∈ (b.finalize entries).diskFiles) := by
  have files (f : Text) : f ∈ (b.finalize entries).diskFiles ↔ b.load f = true := by
    rw [← Finmap.lookup_isSome]
    exact iff_of_eq (congrArg (fun v => v.isSome = true) (lookup_finalizeDiskFiles listed f))
  have before (f : Text) : (f ∈ (b.addedOf entries).map Prod.fst ∨ f ∈ b.base) ↔
      b.load f = true ∨ (b.dirty.lookup f = some none ∧ f ∈ b.base) := by
    rw [mem_addedOf listed, load, value, ← Finmap.lookup_isSome]
    cases stored : b.dirty.lookup f with
    | none => simp
    | some entry =>
      cases entry with
      | none => simp
      | some file => cases b.base.lookup f <;> simp
  have all := addAll_indexes (b.addedOf entries) indexes
  have shrinking : Shrinking getDirectoryPath ((b.addedOf entries).foldl (fun directories file => onAddedFile directories
      file.1 file.2.fileName) b.diskDirectories) (fun f => b.load f = true) (· ∈ b.deletedOf entries) := by
    refine all.shrinking (fun f file => ?_) (fun f file => (before f).mpr (.inl file)) fun d f file inner there above => ?_
    · exact ((before f).mp file).imp_right fun gone => (mem_deletedOf listed).mpr gone.1
    · rcases (before f).mp there with stays | ⟨-, old⟩
      · exact ⟨f, stays, above⟩
      · exact apart.kept d f file inner old above
  have unused (p : Text) (gone : p ∈ b.deletedOf entries) (inner : getDirectoryPath p ≠ p) (f : Text) (file : b.load f = true) :
      ¬Within getDirectoryPath p f := by
    intro below
    have absent := (mem_deletedOf listed).mp gone
    rcases Relation.reflTransGen_iff_eq_or_transGen.mp below with rfl | above
    · rw [load, value, absent] at file
      cases file
    · exact apart.deleted p f absent inner file above
  have result := (removeAll_shrinking (b.deletedOf entries) shrinking unused).indexes depth_getDirectoryPath
  exact ⟨fun d => (result.directories d).trans (by simp only [files]), fun d entry found c =>
    (result.children d entry found c).trans (by simp only [files])⟩

end Builder

variable {Overlay : Type} {toPath : Text → Text}

/-- The builder of a session is finalized with its files apart. -/
def Permitted (toPath : Text → Text) (snapshot : Snapshot) (session : Session Overlay) : Prop :=
  ∀ b, session.built toPath snapshot = some b → b.Apart

theorem step_indexes {snapshot snapshot' : Snapshot} {session : Session Overlay}
    (indexes : Indexes getDirectoryPath snapshot.diskDirectories (· ∈ snapshot.diskFiles))
    (permitted : Permitted toPath snapshot session) (taken : step toPath snapshot session = some snapshot') :
    Indexes getDirectoryPath snapshot'.diskDirectories (· ∈ snapshot'.diskFiles) := by
  obtain ⟨b, built, finalized⟩ := Option.bind_eq_some_iff.mp taken
  split at finalized
  · rename_i listed
    cases finalized
    have keeps := Builder.operateAll_keeps built
    refine Builder.finalize_indexes ?_ (permitted b built) listed
    rw [keeps.base, keeps.diskDirectories]
    exact indexes
  · cases finalized

theorem empty_indexes : Indexes getDirectoryPath Snapshot.empty.diskDirectories (· ∈ Snapshot.empty.diskFiles) where
  directories := by
    intro d
    constructor
    · exact fun inside => absurd inside Finmap.notMem_empty
    · rintro ⟨f, file, -⟩
      exact absurd file Finmap.notMem_empty
  children := by
    intro d entry found
    cases found

/-- The index of every snapshot that sessions lead to. -/
theorem diskDirectories_index_diskFiles {snapshot : Snapshot}
    (run : Interleaving.Reaches (step toPath : Snapshot → Session Overlay → Option Snapshot) (Permitted toPath)
      Snapshot.empty snapshot) :
    Indexes getDirectoryPath snapshot.diskDirectories (· ∈ snapshot.diskFiles) :=
  run.keeps (fun snapshot => Indexes getDirectoryPath snapshot.diskDirectories (· ∈ snapshot.diskFiles)) empty_indexes
    fun _ _ _ indexes permitted taken => step_indexes indexes permitted taken

def file : Text := "/a/b/c.ts".toList

def directory : Text := "/a/b".toList

def diskOf (fileName : Text) : Disk where
  readFile name := if name = fileName then some [] else none
  realpath name := name
  fileExists name := name = fileName

def reading (name : Text) : Session Unit := ⟨∅, [(diskOf file, .getFile name)], [name]⟩

theorem permitted_reading : Permitted id Snapshot.empty (reading file) := by
  intro b built
  have dirty : ((reading file).built id Snapshot.empty).map (fun b => b.dirty) =
      some (Finmap.singleton file (some (newDiskFile file []))) := by decide +kernel
  rw [built] at dirty
  have stored : b.dirty = Finmap.singleton file (some (newDiskFile file [])) := Option.some_injective _ dirty
  have base : b.base = ∅ := (Builder.operateAll_keeps built).base
  constructor
  · intro p f gone
    rw [stored] at gone
    have member := Finmap.mem_of_lookup_eq_some gone
    rw [Finmap.mem_singleton] at member
    rw [member, Finmap.lookup_singleton_eq] at gone
    cases gone
  · intro d f _ _ old
    rw [base] at old
    exact absurd old Finmap.notMem_empty

theorem diskDirectories_index_diskFiles_reading : ∃ snapshot, step id Snapshot.empty (reading file) = some snapshot ∧
    file ∈ snapshot.diskFiles ∧ Indexes getDirectoryPath snapshot.diskDirectories (· ∈ snapshot.diskFiles) := by
  have run : (step id Snapshot.empty (reading file)).map (fun snapshot => decide (file ∈ snapshot.diskFiles)) = some true := by
    decide +kernel
  obtain ⟨snapshot, taken, present⟩ := Option.map_eq_some_iff.mp run
  exact ⟨snapshot, taken, of_decide_eq_true present,
    diskDirectories_index_diskFiles (.single ⟨reading file, permitted_reading, taken⟩)⟩

/-- A directory that is read as a file is taken out of the index, with the file in it. -/
theorem directory_read_as_file : ¬∀ snapshot,
    Interleaving.Reaches (step id : Snapshot → Session Unit → Option Snapshot) (fun _ _ => True) Snapshot.empty snapshot →
    Indexes getDirectoryPath snapshot.diskDirectories (· ∈ snapshot.diskFiles) := by
  intro always
  have run : ((step id Snapshot.empty (reading file)).bind fun snapshot => step id snapshot (reading directory)).map
      (fun snapshot => (decide (file ∈ snapshot.diskFiles), decide ("/a".toList ∈ snapshot.diskDirectories))) = some (true, false) := by
    decide +kernel
  obtain ⟨last, both, facts⟩ := Option.map_eq_some_iff.mp run
  obtain ⟨snapshot, first, second⟩ := Option.bind_eq_some_iff.mp both
  obtain ⟨present, absent⟩ := Prod.mk.inj facts
  have indexes := always last (.tail (.single ⟨reading file, trivial, first⟩) ⟨reading directory, trivial, second⟩)
  have above : Above getDirectoryPath "/a".toList file :=
    .head ⟨show getDirectoryPath directory = "/a".toList by decide +kernel, by decide⟩
      (.single ⟨show getDirectoryPath file = directory by decide +kernel, by decide⟩)
  exact of_decide_eq_false absent ((indexes.directories _).mpr ⟨file, of_decide_eq_true present, above⟩)

end TypeScriptRs.Project.SnapshotFs
