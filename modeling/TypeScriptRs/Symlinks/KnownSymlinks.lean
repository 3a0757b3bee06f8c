import TypeScriptRs.Lib.ReverseIndex
import TypeScriptRs.Lib.Run
import TypeScriptRs.Paths.Rebasing
import TypeScriptRs.Resolver.State

/-! The symlinks that resolutions have shown, and the index of them by their real paths. -/
namespace TypeScriptRs.Symlinks
open Utf8 ReverseIndex Run
open Paths hiding getPathComponents

structure KnownDirectoryLink where
  real : Text
  realPath : Text
  deriving DecidableEq

structure KnownSymlinks where
  directories : HashMap Text (Option KnownDirectoryLink) := ∅
  directoriesByRealpath : HashMap Text (Finset Text) := ∅
  files : HashMap Text Text := ∅
  filesByRealpath : HashMap Text (Finset Text) := ∅
  cwd : Text
  useCaseSensitiveFileNames : Bool

/-- The components of a path; the only root that is kept is a slash. -/
def getPathComponents (path : Text) : List Text :=
  if path = ['/'] then [['/']]
  else
    match path with
    | '/' :: rest => ['/'] :: (rest.splitOn '/').filter (· ≠ [])
    | _ => (path.splitOn '/').filter (· ≠ [])

def getPathFromComponents : List Text → Text
  | [] => []
  | first :: rest => if first = ['/'] then '/' :: join rest else join (first :: rest)

namespace KnownSymlinks

variable (toLowercase : Char → Text) (cache : KnownSymlinks)

def canonical (fileName : Text) : Text := getCanonicalFileName toLowercase fileName cache.useCaseSensitiveFileNames

def toPath (fileName : Text) : Text :=
  cache.canonical toLowercase
    (if Resolver.isRootedDiskPath fileName then Resolver.normalizePath fileName else getNormalizedAbsolutePath fileName cache.cwd)

def setDirectory (symlink symlinkPath : Text) (realDirectory : Option KnownDirectoryLink) : KnownSymlinks :=
  { cache with
    directoriesByRealpath :=
      match realDirectory with
      | some link =>
        if (cache.directories.lookup symlinkPath).isSome then cache.directoriesByRealpath
        else addName cache.directoriesByRealpath link.realPath symlink
      | none => cache.directoriesByRealpath
    directories := cache.directories.insert symlinkPath realDirectory }

def setFile (symlink symlinkPath realpath : Text) : KnownSymlinks :=
  { cache with
    filesByRealpath :=
      if (cache.files.lookup symlinkPath).isSome then cache.filesByRealpath
      else addName cache.filesByRealpath (cache.toPath toLowercase realpath) symlink
    files := cache.files.insert symlinkPath realpath }

def isNodeModulesOrScopedPackageDirectory (s : Text) : Bool :=
  s ≠ [] && (cache.canonical toLowercase s = "node_modules".toList || s.head? = some '@')

/-- The loop that pops the last components while they are equal, on lists that start with the last one. -/
def popCommon : List Text → List Text → Bool → (List Text × List Text) × Bool
  | a :: a' :: as, b :: b' :: bs, isDirectory =>
    if !cache.isNodeModulesOrScopedPackageDirectory toLowercase a' && !cache.isNodeModulesOrScopedPackageDirectory toLowercase b' &&
        cache.canonical toLowercase a = cache.canonical toLowercase b then
      popCommon (a' :: as) (b' :: bs) true
    else ((a :: a' :: as, b :: b' :: bs), isDirectory)
  | as, bs, isDirectory => ((as, bs), isDirectory)

def guessDirectorySymlink (a b : Text) (cwd : Text) : Text × Text :=
  let aParts := getPathComponents (getNormalizedAbsolutePath a cwd)
  let bParts := getPathComponents (getNormalizedAbsolutePath b cwd)
  match cache.popCommon toLowercase aParts.reverse bParts.reverse false with
  | ((aParts, bParts), true) => (getPathFromComponents aParts.reverse, getPathFromComponents bParts.reverse)
  | (_, false) => ([], [])

def containsIgnoredPath (path : Text) : Bool :=
  contains "/node_modules/.".toList path || contains "/.git".toList path || contains ".#".toList path

def processResolution (originalPath resolvedFileName : Text) : KnownSymlinks :=
  if originalPath = [] ∨ resolvedFileName = [] then cache
  else
    let cache := cache.setFile toLowercase originalPath (cache.toPath toLowercase originalPath) resolvedFileName
    let (commonResolved, commonOriginal) := cache.guessDirectorySymlink toLowercase resolvedFileName originalPath cache.cwd
    if commonResolved ≠ [] ∧ commonOriginal ≠ [] then
      let symlinkPath := cache.toPath toLowercase commonOriginal
      if containsIgnoredPath symlinkPath then cache
      else
        cache.setDirectory commonOriginal (ensureTrailingDirectorySeparator symlinkPath)
          (some {
            real := ensureTrailingDirectorySeparator commonResolved
            realPath := ensureTrailingDirectorySeparator (cache.toPath toLowercase commonResolved) })
    else cache

section
variable {toLowercase} {cache}

/-- A file symlink is listed under a real path if and only if its path is mapped to it. -/
def FilesIndexed (toLowercase : Char → Text) (cache : KnownSymlinks) : Prop :=
  Indexed (cache.toPath toLowercase) (fun realpath => some (cache.toPath toLowercase realpath)) cache.files cache.filesByRealpath

def DirectoriesIndexed (toLowercase : Char → Text) (cache : KnownSymlinks) : Prop :=
  Indexed (fun symlink => ensureTrailingDirectorySeparator (cache.toPath toLowercase symlink))
    (Option.map KnownDirectoryLink.realPath) cache.directories cache.directoriesByRealpath

/-- A path that is mapped already is mapped to the same real path again; a new one is that of the symlink. -/
def FileFits (toLowercase : Char → Text) (cache : KnownSymlinks) (symlink symlinkPath realpath : Text) : Prop :=
  Fits (cache.toPath toLowercase) (fun realpath => some (cache.toPath toLowercase realpath)) cache.files symlink symlinkPath realpath

def DirectoryFits (toLowercase : Char → Text) (cache : KnownSymlinks) (symlink symlinkPath : Text)
    (realDirectory : Option KnownDirectoryLink) : Prop :=
  Fits (fun symlink => ensureTrailingDirectorySeparator (cache.toPath toLowercase symlink))
    (Option.map KnownDirectoryLink.realPath) cache.directories symlink symlinkPath realDirectory

theorem filesIndexed_setFile_iff (indexed : FilesIndexed toLowercase cache) (symlink symlinkPath realpath : Text) :
    FilesIndexed toLowercase (cache.setFile toLowercase symlink symlinkPath realpath) ↔
      FileFits toLowercase cache symlink symlinkPath realpath := indexed_insert_iff indexed

theorem directoriesIndexed_setDirectory_iff (indexed : DirectoriesIndexed toLowercase cache) (symlink symlinkPath : Text)
    (realDirectory : Option KnownDirectoryLink) :
    DirectoriesIndexed toLowercase (cache.setDirectory symlink symlinkPath realDirectory) ↔
      DirectoryFits toLowercase cache symlink symlinkPath realDirectory := by
  cases realDirectory with
  | none => exact indexed_insert_iff indexed
  | some link => exact indexed_insert_iff indexed
end

/-- The directory symlink that a resolution shows, if it is recorded. -/
def recordedDirectory (originalPath resolvedFileName : Text) : Option (Text × KnownDirectoryLink) :=
  let (commonResolved, commonOriginal) := cache.guessDirectorySymlink toLowercase resolvedFileName originalPath cache.cwd
  if commonResolved ≠ [] ∧ commonOriginal ≠ [] ∧ containsIgnoredPath (cache.toPath toLowercase commonOriginal) = false then
    some (commonOriginal, {
      real := ensureTrailingDirectorySeparator commonResolved
      realPath := ensureTrailingDirectorySeparator (cache.toPath toLowercase commonResolved) })
  else none

def directoryPath (symlink : Text) : Text := ensureTrailingDirectorySeparator (cache.toPath toLowercase symlink)

variable {toLowercase cache}

theorem popCommon_congr {other : KnownSymlinks} (same : other.useCaseSensitiveFileNames = cache.useCaseSensitiveFileNames)
    (as bs : List Text) (isDirectory : Bool) :
    other.popCommon toLowercase as bs isDirectory = cache.popCommon toLowercase as bs isDirectory := by
  have canonical_ : other.canonical toLowercase = cache.canonical toLowercase := by
    unfold canonical
    rw [same]
  have scope : other.isNodeModulesOrScopedPackageDirectory toLowercase = cache.isNodeModulesOrScopedPackageDirectory toLowercase := by
    unfold isNodeModulesOrScopedPackageDirectory
    rw [canonical_]
  fun_induction popCommon toLowercase cache as bs isDirectory with
  | case1 a a' as b b' bs isDirectory pops ih =>
    rw [popCommon, scope, canonical_, if_pos pops]
    exact ih
  | case2 a a' as b b' bs isDirectory stays => rw [popCommon, scope, canonical_, if_neg stays]
  | case3 as bs isDirectory short => rw [popCommon]; exact short

theorem guessDirectorySymlink_congr {other : KnownSymlinks} (same : other.useCaseSensitiveFileNames = cache.useCaseSensitiveFileNames)
    (a b cwd : Text) : other.guessDirectorySymlink toLowercase a b cwd = cache.guessDirectorySymlink toLowercase a b cwd := by
  unfold guessDirectorySymlink
  dsimp only
  rw [popCommon_congr same]

theorem setFile_useCase (symlink symlinkPath realpath : Text) :
    (cache.setFile toLowercase symlink symlinkPath realpath).useCaseSensitiveFileNames = cache.useCaseSensitiveFileNames := rfl

variable (toLowercase cache)

theorem processResolution_eq {originalPath resolvedFileName : Text} (filled : ¬(originalPath = [] ∨ resolvedFileName = [])) :
    cache.processResolution toLowercase originalPath resolvedFileName =
      let stored := cache.setFile toLowercase originalPath (cache.toPath toLowercase originalPath) resolvedFileName
      match cache.recordedDirectory toLowercase originalPath resolvedFileName with
      | some (symlink, link) => stored.setDirectory symlink (cache.directoryPath toLowercase symlink) (some link)
      | none => stored := by
  -- The table of files changes neither the directory nor the case rule that the guess is made with.
  have guess : (cache.setFile toLowercase originalPath (cache.toPath toLowercase originalPath) resolvedFileName).guessDirectorySymlink
      toLowercase resolvedFileName originalPath cache.cwd = cache.guessDirectorySymlink toLowercase resolvedFileName originalPath cache.cwd :=
    guessDirectorySymlink_congr (setFile_useCase _ _ _) _ _ _
  unfold processResolution recordedDirectory
  rw [if_neg filled]
  dsimp only
  rw [show (cache.setFile toLowercase originalPath (cache.toPath toLowercase originalPath) resolvedFileName).cwd = cache.cwd from rfl, guess]
  generalize cache.guessDirectorySymlink toLowercase resolvedFileName originalPath cache.cwd = pair
  have path (symlink : Text) : (cache.setFile toLowercase originalPath (cache.toPath toLowercase originalPath) resolvedFileName).toPath
      toLowercase symlink = cache.toPath toLowercase symlink := rfl
  rw [path, path]
  by_cases found : pair.1 ≠ [] ∧ pair.2 ≠ []
  · rw [if_pos found]
    cases ignored : containsIgnoredPath (cache.toPath toLowercase pair.2) with
    | true =>
      rw [if_pos rfl, if_neg (fun all => Bool.noConfusion all.2.2)]
    | false =>
      rw [if_neg Bool.false_ne_true, if_pos ⟨found.1, found.2, rfl⟩]
      rfl
  · rw [if_neg found, if_neg (fun all => found ⟨all.1, all.2.1⟩)]

inductive Call where
  | processResolution (originalPath resolvedFileName : Text)
  | setFile (symlink symlinkPath realpath : Text)
  | setDirectory (symlink symlinkPath : Text) (realDirectory : Option KnownDirectoryLink)

def step (cache : KnownSymlinks) : Call → KnownSymlinks × Unit
  | .processResolution originalPath resolvedFileName => (cache.processResolution toLowercase originalPath resolvedFileName, ())
  | .setFile symlink symlinkPath realpath => (cache.setFile toLowercase symlink symlinkPath realpath, ())
  | .setDirectory symlink symlinkPath realDirectory => (cache.setDirectory symlink symlinkPath realDirectory, ())

/-- What a call says of a symlink that is known is what is known of it. -/
def Repeats (cache : KnownSymlinks) : Call → Prop
  | .processResolution originalPath resolvedFileName => originalPath = [] ∨ resolvedFileName = [] ∨
      (FileFits toLowercase cache originalPath (cache.toPath toLowercase originalPath) resolvedFileName ∧
        ∀ symlink link, cache.recordedDirectory toLowercase originalPath resolvedFileName = some (symlink, link) →
          DirectoryFits toLowercase cache symlink (cache.directoryPath toLowercase symlink) (some link))
  | .setFile symlink symlinkPath realpath => FileFits toLowercase cache symlink symlinkPath realpath
  | .setDirectory symlink symlinkPath realDirectory => DirectoryFits toLowercase cache symlink symlinkPath realDirectory

variable {toLowercase} {cache}

def AllIndexed (toLowercase : Char → Text) (cache : KnownSymlinks) : Prop :=
  FilesIndexed toLowercase cache ∧ DirectoriesIndexed toLowercase cache

theorem step_indexed_iff (cache : KnownSymlinks) (call : Call) (indexed : AllIndexed toLowercase cache) :
    AllIndexed toLowercase (step toLowercase cache call).1 ↔ Repeats toLowercase cache call := by
  obtain ⟨files, directories⟩ := indexed
  cases call with
  | processResolution originalPath resolvedFileName =>
    by_cases empty : originalPath = [] ∨ resolvedFileName = []
    · have same : cache.processResolution toLowercase originalPath resolvedFileName = cache := if_pos empty
      refine iff_of_true ?_ (empty.elim .inl fun none => .inr (.inl none))
      show AllIndexed toLowercase (cache.processResolution toLowercase originalPath resolvedFileName)
      rw [same]
      exact ⟨files, directories⟩
    have rest (p : Prop) : (originalPath = [] ∨ resolvedFileName = [] ∨ p) ↔ p := by
      rw [← or_assoc]
      exact or_iff_right empty
    show AllIndexed toLowercase (cache.processResolution toLowercase originalPath resolvedFileName) ↔
      (originalPath = [] ∨ resolvedFileName = [] ∨ _)
    rw [rest, processResolution_eq toLowercase cache empty]
    have stored := filesIndexed_setFile_iff files originalPath (cache.toPath toLowercase originalPath) resolvedFileName
    cases recorded : cache.recordedDirectory toLowercase originalPath resolvedFileName with
    | none => exact ⟨fun both => ⟨stored.mp both.1, fun _ _ found => by cases found⟩, fun both => ⟨stored.mpr both.1, directories⟩⟩
    | some found =>
      obtain ⟨symlink, link⟩ := found
      have linked := directoriesIndexed_setDirectory_iff directories symlink (cache.directoryPath toLowercase symlink) (some link)
      refine and_congr stored (linked.trans ⟨fun fits symlink' link' same => ?_, fun fits => fits symlink link rfl⟩)
      cases same
      exact fits
  | setFile symlink symlinkPath realpath =>
    exact (and_iff_left directories).trans (filesIndexed_setFile_iff files symlink symlinkPath realpath)
  | setDirectory symlink symlinkPath realDirectory =>
    exact (and_iff_right files).trans (directoriesIndexed_setDirectory_iff directories symlink symlinkPath realDirectory)

def newKnownSymlink (currentDirectory : Text) (useCaseSensitiveFileNames : Bool) : KnownSymlinks :=
  { cwd := currentDirectory, useCaseSensitiveFileNames }

/-- In every state of a run from a new table both indexes agree with it, exactly if no call changes what is known. -/
theorem indexed_iff_along (toLowercase : Char → Text) (currentDirectory : Text) (useCaseSensitiveFileNames : Bool) (calls : List Call) :
    (∀ n, AllIndexed toLowercase (run (step toLowercase) (newKnownSymlink currentDirectory useCaseSensitiveFileNames) (calls.take n)).1) ↔
      Along (step toLowercase) (Repeats toLowercase) (newKnownSymlink currentDirectory useCaseSensitiveFileNames) calls :=
  holds_iff_along step_indexed_iff ⟨indexed_empty, indexed_empty⟩

end KnownSymlinks

end TypeScriptRs.Symlinks
