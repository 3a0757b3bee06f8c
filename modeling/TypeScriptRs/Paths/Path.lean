import TypeScriptRs.Lib.Utf8
import TypeScriptRs.Lib.Split

/-! Paths as texts, and their component-based normalization. Lengths are in bytes. -/
namespace TypeScriptRs.Paths
open Utf8

def isAnyDirectorySeparator (c : Char) : Bool := c = '/' || c = '\\'

def normalizeSlashes (path : Text) : Text := path.map fun c => if c = '\\' then '/' else c

def hasTrailingDirectorySeparator (path : Text) : Bool := path.getLast?.any isAnyDirectorySeparator

def removeTrailingDirectorySeparator (path : Text) : Text :=
  if hasTrailingDirectorySeparator path then path.dropLast else path

def ensureTrailingDirectorySeparator (path : Text) : Text :=
  if hasTrailingDirectorySeparator path then path else path ++ ['/']

section
def isVolumeCharacter (c : Char) : Bool := ('a' ≤ c && c ≤ 'z') || ('A' ≤ c && c ≤ 'Z')

def fileUrlVolumeSeparator : Text → Option Text
  | ':' :: _ => some [':']
  | '%' :: '3' :: 'a' :: _ => some ['%', '3', 'a']
  | '%' :: '3' :: 'A' :: _ => some ['%', '3', 'A']
  | _ => none

/-- The text before and after the first `://`. -/
def findScheme : Text → Option (Text × Text)
  | ':' :: '/' :: '/' :: rest => some ([], rest)
  | c :: rest => (findScheme rest).map fun (scheme, after) => (c :: scheme, after)
  | [] => none

/-- What a local file URL has for a root beyond its authority: a DOS volume. -/
def fileUrlVolume (after : Text) : Text :=
  match after with
  | [] => []
  | v :: more =>
    if isVolumeCharacter v then
      match fileUrlVolumeSeparator more with
      | none => []
      | some separator =>
        match more.drop separator.length with
        | [] => v :: separator
        | '/' :: _ => v :: separator ++ ['/']
        | _ => []
    else []

def urlRoot (scheme rest : Text) : Text :=
  if '/' ∈ rest then
    let authority := rest.takeWhile (· ≠ '/')
    let after := (rest.dropWhile (· ≠ '/')).tail
    scheme ++ "://".toList ++ authority ++ ['/'] ++
      if scheme = "file".toList ∧ (authority = [] ∨ authority = "localhost".toList) then fileUrlVolume after else []
  else scheme ++ "://".toList ++ rest

def urlRootOf (path : Text) : Text × Bool :=
  match findScheme path with
  | some (scheme, rest) => (urlRoot scheme rest, true)
  | none => ([], false)

/-- The root that a path starts with, and whether it is that of a URL. -/
def encodedRoot (path : Text) : Text × Bool :=
  match path with
  | [] => ([], false)
  | [c] => if isAnyDirectorySeparator c then ([c], false) else ([], false)
  | c :: d :: rest =>
    if isAnyDirectorySeparator c then
      -- POSIX, or UNC up to the next separator.
      if d ≠ c then ([c], false)
      else if c ∈ rest then (c :: d :: rest.takeWhile (· ≠ c) ++ [c], false)
      else (path, false)
    else if isVolumeCharacter c ∧ d = ':' then
      match rest with
      | [] => (path, false)
      | s :: _ => if isAnyDirectorySeparator s then ([c, d, s], false) else urlRootOf path
    else if c = '^' ∧ d = '/' then ([c, d], false)
    else urlRootOf path

def rootOf (path : Text) : Text := (encodedRoot path).1

/-- Roots of URLs are encoded as the complement of their length. -/
def getEncodedRootLength (path : Text) : Int :=
  if (encodedRoot path).2 then -(bytes (rootOf path) : Int) - 1 else bytes (rootOf path)

def getRootLength (path : Text) : Nat :=
  let rootLength := getEncodedRootLength path
  if rootLength < 0 then (-rootLength - 1).toNat else rootLength.toNat

def afterRoot (path : Text) : Text := path.drop (rootOf path).length

theorem getRootLength_eq (path : Text) : getRootLength path = bytes (rootOf path) := by
  unfold getRootLength getEncodedRootLength
  cases (encodedRoot path).2 with
  | true =>
    simp only [if_true]
    rw [if_pos (by omega)]
    omega
  | false =>
    simp only [Bool.false_eq_true, if_false]
    rw [if_neg (by omega)]
    omega
end

def combineOne (result trailingPath : Text) : Text :=
  if trailingPath = [] then result
  else
    let trailingPath := normalizeSlashes trailingPath
    if result = [] ∨ getRootLength trailingPath ≠ 0 then trailingPath
    else (if hasTrailingDirectorySeparator result then result else result ++ ['/']) ++ trailingPath

def combinePaths (firstPath : Text) (paths : List Text) : Text := paths.foldl combineOne (normalizeSlashes firstPath)

def join (components : List Text) : Text := ['/'].intercalate components

def getPathFromPathComponents : List Text → Text
  | [] => []
  | root :: components => (if root ≠ [] then ensureTrailingDirectorySeparator root else root) ++ join components

/-- The root, then the text between slashes; a last slash adds nothing. -/
def pathComponents (path : Text) : List Text :=
  let rest := (afterRoot path).splitOn '/'
  rootOf path :: if rest.getLast? = some [] then rest.dropLast else rest

def getPathComponents (path currentDirectory : Text) : List Text := pathComponents (combinePaths currentDirectory [path])

def reduceStep (root : Text) (reduced : List Text) (component : Text) : List Text :=
  if component = [] ∨ component = ['.'] then reduced
  else if component = ['.', '.'] then
    if reduced ≠ [] ∧ reduced.getLast? ≠ some ['.', '.'] then reduced.dropLast
    else if reduced = [] ∧ root ≠ [] then reduced
    else reduced ++ [component]
  else reduced ++ [component]

def reducePathComponents : List Text → List Text
  | [] => []
  | root :: components => root :: components.foldl (reduceStep root) []

/-- The scan of the text after the root, one component a turn. -/
def normalizeRest (root : Text) : Nat → Text → List Text → List Text
  | 0, _, components => components
  | fuel + 1, rest, components =>
    let rest := rest.dropWhile (· = '/')
    if rest = [] then components
    else
      let component := rest.takeWhile (· ≠ '/')
      let after := rest.dropWhile (· ≠ '/')
      if component = [] ∨ component = ['.'] then normalizeRest root fuel after components
      else if component = ['.', '.'] ∧ components ≠ [] ∧ components.getLast? ≠ some ['.', '.'] then
        normalizeRest root fuel after components.dropLast
      else if component = ['.', '.'] ∧ components = [] ∧ root ≠ [] then normalizeRest root fuel after components
      else normalizeRest root fuel after (components ++ [component])

def getNormalizedPathComponentsFromCombined (path : Text) : List Text :=
  rootOf path :: normalizeRest (rootOf path) path.length (afterRoot path) []

/-- The path that a file name stands for, before it is normalized. -/
def absoluteFileName (fileName currentDirectory : Text) : Text :=
  if getRootLength fileName = 0 ∧ currentDirectory ≠ [] then combinePaths currentDirectory [fileName]
  else normalizeSlashes fileName

def getNormalizedAbsolutePath (fileName currentDirectory : Text) : Text :=
  let fileName := absoluteFileName fileName currentDirectory
  let result := getPathFromPathComponents (getNormalizedPathComponentsFromCombined fileName)
  let rootLength := getRootLength fileName
  if bytes result > rootLength then removeTrailingDirectorySeparator result
  else if bytes result = rootLength ∧ rootLength ≠ 0 then ensureTrailingDirectorySeparator result
  else result

example : getNormalizedAbsolutePath "file:///c:/a/./é/../b//".toList [] = "file:///c:/a/b".toList := by decide

end TypeScriptRs.Paths
