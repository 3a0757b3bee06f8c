import TypeScriptRs.Lib.Ancestors
import TypeScriptRs.Lib.Run
import TypeScriptRs.Paths.Components

/-! The files of a snapshot, and a builder that reads and drops them and keeps the index. -/
namespace TypeScriptRs.Project.SnapshotFs
open Utf8 Paths Ancestors

structure DiskFile where
  fileName : Text
  content : Text
  needsReload : Bool
  realpathPath : Text
  deriving DecidableEq

def newDiskFile (fileName content : Text) : DiskFile := ⟨fileName, content, false, []⟩

def DiskFile.matchesDiskText (file : DiskFile) : Bool := !file.needsReload

structure Disk where
  readFile : Text → Option Text
  realpath : Text → Text
  fileExists : Text → Bool

structure Snapshot where
  diskFiles : HashMap Text DiskFile
  diskDirectories : Index Text Text
  nodeModulesRealpathAliases : HashMap Text (Finset Text)

def Snapshot.empty : Snapshot := ⟨∅, ∅, ∅⟩

/-- A builder, with the state of its disk files: those of the snapshot before, and what became of some of them. -/
structure Builder (Overlay : Type) where
  overlays : HashMap Text Overlay
  base : HashMap Text DiskFile
  dirty : HashMap Text (Option DiskFile)
  diskDirectories : Index Text Text
  nodeModulesRealpathAliases : HashMap Text (Finset Text)

inductive FileHandle (Overlay : Type) where
  | overlay (file : Overlay)
  | disk (file : DiskFile)

namespace Builder

variable {Overlay : Type}

def new (snapshot : Snapshot) (overlays : HashMap Text Overlay) : Builder Overlay :=
  ⟨overlays, snapshot.diskFiles, ∅, snapshot.diskDirectories, snapshot.nodeModulesRealpathAliases⟩

section
variable (b : Builder Overlay)

def value (key : Text) : Option DiskFile :=
  match b.dirty.lookup key with
  | some value => value
  | none => b.base.lookup key

def load (key : Text) : Bool := (b.value key).isSome

def store (key : Text) (value : DiskFile) : Builder Overlay := { b with dirty := b.dirty.insert key (some value) }

def delete (key : Text) : Builder Overlay := { b with dirty := b.dirty.insert key none }

def keys : Finset Text := (b.base.keys ∪ b.dirty.keys).filter fun key => b.load key
end

variable (toPath : Text → Text) (disk : Disk) (b : Builder Overlay)

def recordRealpathAlias (diskFile : DiskFile) (symlinkFileName symlinkPath : Text) : DiskFile × Builder Overlay :=
  let realpathPath := toPath (disk.realpath symlinkFileName)
  if realpathPath = symlinkPath then (diskFile, b)
  else
    let aliases := (b.nodeModulesRealpathAliases.lookup realpathPath).getD ∅
    ({ diskFile with realpathPath },
      { b with nodeModulesRealpathAliases := b.nodeModulesRealpathAliases.insert realpathPath (insert symlinkPath aliases) })

def reloadEntry (entry : DiskFile) : Option DiskFile :=
  if entry.fileName = [] then none
  else (disk.readFile entry.fileName).map fun content =>
    { newDiskFile entry.fileName content with realpathPath := entry.realpathPath }

def reloaded (path : Text) (entry : DiskFile) : Option DiskFile × Builder Overlay :=
  match reloadEntry disk entry with
  | some file => (some file, b.store path file)
  | none => (none, b.delete path)

def reloadEntryPath (path : Text) : Option DiskFile × Builder Overlay :=
  match b.value path with
  | none => (none, b)
  | some entry => b.reloaded disk path entry

def reloadEntryIfNeededPath (path : Text) : Option DiskFile × Builder Overlay :=
  match b.value path with
  | none => (none, b)
  | some entry => if entry.matchesDiskText then (some entry, b) else b.reloaded disk path entry

def nodeModules : Text := "/node_modules/".toList

def createEntry (fileName path : Text) : Builder Overlay :=
  let file := { newDiskFile fileName [] with needsReload := true }
  let stored := b.store path file
  if nodeModules <:+: path then
    let (file, recorded) := stored.recordRealpathAlias toPath disk file fileName path
    recorded.store path file
  else stored

def getDiskFile (fileName path : Text) (forceReload : Bool) : Option DiskFile × Builder Overlay :=
  let b := if b.load path then b else b.createEntry toPath disk fileName path
  if forceReload then b.reloadEntryPath disk path else b.reloadEntryIfNeededPath disk path

def getFileByPath (fileName path : Text) : Option (FileHandle Overlay) × Builder Overlay :=
  match b.overlays.lookup path with
  | some file => (some (.overlay file), b)
  | none =>
    let (file, b) := b.getDiskFile toPath disk fileName path false
    (file.map .disk, b)

def getFile (fileName : Text) : Option (FileHandle Overlay) × Builder Overlay :=
  b.getFileByPath toPath disk fileName (toPath fileName)

def fileExists (fileName path : Text) : Bool × Builder Overlay :=
  if path ∈ b.overlays then (true, b)
  else if b.load path then
    let (file, b) := b.reloadEntryIfNeededPath disk path
    (file.isSome, b)
  else (disk.fileExists fileName, b)

def needReload (path : Text) : Builder Overlay :=
  match b.value path with
  | none => b
  | some file => b.store path { file with needsReload := true }

/-- The keys are those of the builder, in the order in which they are listed. -/
def invalidateCache (keys : List Text) : Builder Overlay := keys.foldl needReload b

def invalidateNodeModulesCache (keys : List Text) : Builder Overlay :=
  keys.foldl (fun b path => if nodeModules <:+: path then b.needReload path else b) b

def deleteEntry (path : Text) : Builder Overlay := if b.load path then b.delete path else b

/-- The changed and the deleted documents, by their file names. -/
def markDirtyFiles (changed deleted : List Text) : Builder Overlay :=
  let b := changed.foldl (fun b fileName => b.needReload (toPath fileName)) b
  deleted.foldl (fun b fileName => b.deleteEntry (toPath fileName)) b

end Builder

section
def onAddedFile (directories : Index Text Text) (path fileName : Text) : Index Text Text :=
  add getDirectoryPath getDirectoryPath getBaseFileName (depth path + 1) path fileName directories

def onDeletedFileOrDirectory (directories : Index Text Text) (path : Text) : Index Text Text :=
  remove getDirectoryPath (directories.keys.card + 1) path directories

def removeAliasPath (aliases : HashMap Text (Finset Text)) (realpathPath aliasPath : Text) : HashMap Text (Finset Text) :=
  match aliases.lookup realpathPath with
  | none => aliases
  | some paths =>
    if paths.erase aliasPath = ∅ then aliases.erase realpathPath
    else aliases.insert realpathPath (paths.erase aliasPath)

variable {Overlay : Type}

namespace Builder

variable (b : Builder Overlay)

def deletedOf (entries : List Text) : List Text := entries.filter fun path => b.dirty.lookup path = some none

def addedOf (entries : List Text) : List (Text × DiskFile) :=
  entries.filterMap fun path =>
    match b.dirty.lookup path with
    | some (some file) => if path ∈ b.base then none else some (path, file)
    | _ => none

def dropAlias (aliases : HashMap Text (Finset Text)) (path : Text) : HashMap Text (Finset Text) :=
  match b.base.lookup path with
  | some file => if file.realpathPath = [] then aliases else removeAliasPath aliases file.realpathPath path
  | none => aliases

def finalizeEntry (files : HashMap Text DiskFile) (path : Text) : HashMap Text DiskFile :=
  match b.dirty.lookup path with
  | some (some file) => files.insert path file
  | _ => files.erase path

def finalizeDiskFiles (entries : List Text) : HashMap Text DiskFile := entries.foldl b.finalizeEntry b.base

/-- The entries are the dirty ones, in the order in which they are listed. -/
def finalize (entries : List Text) : Snapshot where
  diskFiles := b.finalizeDiskFiles entries
  diskDirectories :=
    let added := (b.addedOf entries).foldl (fun directories file => onAddedFile directories file.1 file.2.fileName)
      b.diskDirectories
    (b.deletedOf entries).foldl onDeletedFileOrDirectory added
  nodeModulesRealpathAliases := (b.deletedOf entries).foldl b.dropAlias b.nodeModulesRealpathAliases

end Builder
end

variable {Overlay : Type}

inductive Operation where
  | getFile (fileName : Text)
  | getFileByPath (fileName path : Text)
  | fileExists (fileName path : Text)
  | getDiskFile (fileName path : Text) (forceReload : Bool)
  | invalidateCache (keys : List Text)
  | invalidateNodeModulesCache (keys : List Text)
  | markDirtyFiles (changed deleted : List Text)
  | deleteEntry (path : Text)

/-- A list of keys is an order in which a table may list them. -/
def lists (keys : List Text) (all : Finset Text) : Bool := keys.Nodup ∧ keys.toFinset = all

def Builder.operate (toPath : Text → Text) (b : Builder Overlay) (disk : Disk) : Operation → Option (Builder Overlay)
  | .getFile fileName => some (b.getFile toPath disk fileName).2
  | .getFileByPath fileName path => some (b.getFileByPath toPath disk fileName path).2
  | .fileExists fileName path => some (b.fileExists disk fileName path).2
  | .getDiskFile fileName path forceReload => some (b.getDiskFile toPath disk fileName path forceReload).2
  | .invalidateCache keys => if lists keys b.keys then some (b.invalidateCache keys) else none
  | .invalidateNodeModulesCache keys => if lists keys b.keys then some (b.invalidateNodeModulesCache keys) else none
  | .markDirtyFiles changed deleted => some (b.markDirtyFiles toPath changed deleted)
  | .deleteEntry path => some (b.deleteEntry path)

def Builder.operateAll (toPath : Text → Text) : Builder Overlay → List (Disk × Operation) → Option (Builder Overlay)
  | b, [] => some b
  | b, (disk, operation) :: rest => (b.operate toPath disk operation).bind fun b => operateAll toPath b rest

/-- One builder from a snapshot to the next. The disk may change at any time. -/
structure Session (Overlay : Type) where
  overlays : HashMap Text Overlay
  operations : List (Disk × Operation)
  entries : List Text

def Session.built (toPath : Text → Text) (session : Session Overlay) (snapshot : Snapshot) : Option (Builder Overlay) :=
  (Builder.new snapshot session.overlays).operateAll toPath session.operations

def step (toPath : Text → Text) (snapshot : Snapshot) (session : Session Overlay) : Option Snapshot :=
  (session.built toPath snapshot).bind fun b =>
    if lists session.entries b.dirty.keys then some (b.finalize session.entries) else none

end TypeScriptRs.Project.SnapshotFs
