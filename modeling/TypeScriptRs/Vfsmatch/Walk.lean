import Mathlib.Data.List.Sort
import TypeScriptRs.Vfsmatch.Glob

/-! The walk over a file tree that collects the files of a project. -/
namespace TypeScriptRs.Vfsmatch
open Machine Utf8

mutual

inductive Tree where
  | node (files : List Text) (directories : Forest)

inductive Forest where
  | none
  | more (name : Text) (tree : Tree) (rest : Forest)
end

def Tree.files : Tree → List Text
  | .node files _ => files

def Tree.directories : Tree → Forest
  | .node _ directories => directories

def Forest.Lists : Forest → Text → Tree → Prop
  | .none, _, _ => False
  | .more name tree rest, name', tree' => (name' = name ∧ tree' = tree) ∨ rest.Lists name' tree'

/-- A file system: what is in a directory, which of its names are symbolic links when that is known, and the
path without links of a path. -/
structure Host where
  directory : Text → Tree
  symlinks : Text → Option (List Text)
  realpath : Text → Text
  useCaseSensitiveFileNames : Bool

def beforeLastSlash (path : Text) : Option Text :=
  if '/' ∈ path then some (path.reverse.dropWhile (· ≠ '/')).tail.reverse else none

def getDirectoryPath (path : Text) : Text :=
  match beforeLastSlash path with
  | some base => if base = [] then ['/'] else base
  | none => []

def hasExtension (path : Text) : Bool := '.' ∈ (path.splitOn '/').getLastD []

def getIncludeBasePath (absolute : Text) : Text :=
  if absolute.any fun c => c = '*' ∨ c = '?' then
    getDirectoryPath (absolute.takeWhile fun c => ¬(c = '*' ∨ c = '?'))
  else if hasExtension absolute then getDirectoryPath absolute
  else removeTrailingDirectorySeparator absolute

def containsPath (base child : Text) (caseSensitive : Bool) : Bool :=
  let base := ensureTrailingSlash (canonicalFileName base caseSensitive)
  let child := canonicalFileName child caseSensitive
  child = trimEndSlashes base || base.isPrefixOf child

def comparePaths (caseSensitive : Bool) (a b : Text) : Prop :=
  canonicalFileName a caseSensitive ≤ canonicalFileName b caseSensitive

instance (caseSensitive : Bool) : DecidableRel (comparePaths caseSensitive) :=
  fun a b => inferInstanceAs (Decidable (canonicalFileName a caseSensitive ≤ canonicalFileName b caseSensitive))

def getBasePaths (path : Text) (includes : List Text) (caseSensitive : Bool) : List Text :=
  let includeBasePaths := includes.map fun spec =>
    getIncludeBasePath (if isRootedDiskPath spec then spec else normalizePath (combinePaths path spec))
  (includeBasePaths.insertionSort (comparePaths caseSensitive)).foldl
    (fun basePaths includeBasePath =>
      if basePaths.all fun base => !containsPath base includeBasePath caseSensitive then basePaths ++ [includeBasePath]
      else basePaths) [path]

def unlimitedDepth : Int := 2 ^ 31 - 1

structure GlobVisitor where
  fileMatcher : GlobMatcher
  directoryMatcher : GlobMatcher
  extensions : List Text

/-- What a visit changes: the directories seen, and the files found for each include pattern. -/
structure Found where
  visited : List Text := []
  results : List (List Text)

def GlobVisitor.hasExtension (v : GlobVisitor) (file : Text) : Bool :=
  v.extensions = [] || v.extensions.any (·.isSuffixOf file)

def GlobVisitor.addFile (v : GlobVisitor) (pathPrefix absolutePrefix : Text) (s : Found) (file : Text) : Outcome Found :=
  if v.hasExtension file then do
    match ← v.fileMatcher.matchesFileParts absolutePrefix file with
    | some index => pure { s with results := s.results.modify index (· ++ [pathPrefix ++ file]) }
    | none => pure s
  else .ok s

/-- The name that a child directory is remembered by, if it is known not to be a link. -/
def childRealpath (host : Host) (absolutePath realpath dir : Text) : Text :=
  match host.symlinks absolutePath with
  | some symlinks => if dir ∉ symlinks then combinePaths realpath dir else []
  | none => []

mutual

/-- The tree is the one that the host has at the absolute path. -/
def visit (v : GlobVisitor) (host : Host) : Tree → Text → Text → Int → Text → Found → Outcome Found
  | .node files directories, path, absolutePath, depth, resolvedRealpath, s =>
    let realpath := if resolvedRealpath = [] then host.realpath absolutePath else resolvedRealpath
    let canonical := canonicalFileName realpath host.useCaseSensitiveFileNames
    if canonical ∈ s.visited then .ok s
    else do
      let s ← files.foldlM (v.addFile (ensureTrailingSlash path) (ensureTrailingSlash absolutePath))
        { s with visited := canonical :: s.visited }
      let nextDepth := if depth = unlimitedDepth then depth else depth - 1
      if depth ≠ unlimitedDepth ∧ nextDepth = 0 then pure s
      else visitDirectories v host directories path absolutePath nextDepth realpath s

def visitDirectories (v : GlobVisitor) (host : Host) : Forest → Text → Text → Int → Text → Found → Outcome Found
  | .none, _, _, _, _, s => .ok s
  | .more dir tree rest, path, absolutePath, nextDepth, realpath, s => do
    let passes ← v.directoryMatcher.matchesDirectoryParts (ensureTrailingSlash absolutePath) dir
    let s ← if passes then
        visit v host tree (ensureTrailingSlash path ++ dir) (ensureTrailingSlash absolutePath ++ dir) nextDepth
          (childRealpath host absolutePath realpath dir) s
      else .ok s
    visitDirectories v host rest path absolutePath nextDepth realpath s
end

structure MatchFilesOptions where
  path : Text
  extensions : List Text
  excludes : List Text
  includes : List Text
  currentDirectory : Text
  depth : Int

namespace MatchFilesOptions

variable (options : MatchFilesOptions) (host : Host)

def matcher (usage : Usage) : GlobMatcher :=
  newGlobMatcher options.includes options.excludes
    (combinePaths (normalizePath options.currentDirectory) (normalizePath options.path)) host.useCaseSensitiveFileNames usage

def visitor : GlobVisitor where
  fileMatcher := options.matcher host .files
  directoryMatcher := options.matcher host .directories
  extensions := options.extensions

def basePaths : List Text := getBasePaths (normalizePath options.path) options.includes host.useCaseSensitiveFileNames

def absolute (basePath : Text) : Text := combinePaths (normalizePath options.currentDirectory) basePath

end MatchFilesOptions

def visitBase (options : MatchFilesOptions) (host : Host) (s : Found) (basePath : Text) : Outcome Found :=
  visit (options.visitor host) host (host.directory (options.absolute basePath)) basePath (options.absolute basePath)
    options.depth [] s

def matchFiles (options : MatchFilesOptions) (host : Host) : Outcome (List Text) := do
  let resultCount := max (options.visitor host).fileMatcher.includes.length 1
  let s ← (options.basePaths host).foldlM (visitBase options host) { results := List.replicate resultCount [] }
  pure s.results.flatten

end TypeScriptRs.Vfsmatch
