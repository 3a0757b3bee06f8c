import TypeScriptRs.Incremental.WireFormat
import TypeScriptRs.Lib.SortedGroups
import TypeScriptRs.Paths.Rebasing
import TypeScriptRs.Resolver.State

/-! Root files as ranges of file ids, and the reader of the ranges. -/
namespace TypeScriptRs.Incremental
open Machine Utf8 SortedGroups
open Paths hiding getPathComponents

structure LibFile where
  name : String
  replaced : Bool

/-- What names a file in a build info file, and what the names are read with. -/
structure Naming where
  getDefaultLibFile : Text → Option LibFile
  buildInfoDirectory : Text
  comparePathsOptions : ComparePathsOptions
  toLowercase : Char → Text

section
variable (naming : Naming)

def ensurePathIsNonModuleName (path : Text) : Text :=
  if getEncodedRootLength path = 0 && !Resolver.pathIsRelative path then '.' :: '/' :: path else path

def relativeToBuildInfo (path : Text) : Outcome String := do
  let relative ← getRelativePathFromDirectory naming.toLowercase naming.buildInfoDirectory path naming.comparePathsOptions
  pure (String.ofList (ensurePathIsNonModuleName relative))

/-- A default library that was not replaced is called by its own name. -/
def fileNameOf (path : Text) : Outcome String :=
  match naming.getDefaultLibFile path with
  | some libFile => if !libFile.replaced then pure libFile.name else relativeToBuildInfo naming path
  | none => relativeToBuildInfo naming path

def toPath (fileName : String) : Text :=
  getCanonicalFileName naming.toLowercase
    (if Resolver.isRootedDiskPath fileName.toList then Resolver.normalizePath fileName.toList
      else getNormalizedAbsolutePath fileName.toList naming.buildInfoDirectory)
    naming.comparePathsOptions.useCaseSensitiveFileNames
end

/-- The position of a file id in the lists of names and infos. -/
def fileIndex (fileId : BuildInfoFileId) : Nat := ((fileId - 1).toInt % 2 ^ 64).toNat

def outOfBounds : String := "index out of bounds"

def BuildInfo.fileName (info : BuildInfo) (fileId : BuildInfoFileId) : Outcome String :=
  match info.fileNames[fileIndex fileId]? with
  | some name => pure name
  | none => .panic outOfBounds

def BuildInfo.fileInfo (info : BuildInfo) (fileId : BuildInfoFileId) : Outcome BuildInfoFileInfo :=
  match info.fileInfos[fileIndex fileId]? with
  | some fileInfo => pure fileInfo
  | none => .panic outOfBounds

structure ToBuildInfo where
  buildInfo : BuildInfo := {}
  fileNameToFileId : List (Text × BuildInfoFileId) := []

section
variable (naming : Naming) (fileInfos : Text → Option FileInfo)

def addFileName (to_ : ToBuildInfo) (path : Text) (name : String) : BuildInfoFileId × ToBuildInfo :=
  (Int32.ofNat (to_.buildInfo.fileNames.length + 1), {
    buildInfo := { to_.buildInfo with fileNames := to_.buildInfo.fileNames ++ [name] }
    fileNameToFileId :=
      Entries.insert to_.fileNameToFileId path (Int32.ofNat (to_.buildInfo.fileNames.length + 1)) })

def toFileId (to_ : ToBuildInfo) (path : Text) : Outcome (BuildInfoFileId × ToBuildInfo) :=
  if (to_.fileNameToFileId.lookup path).getD 0 = 0 then do
    let name ← fileNameOf naming path
    pure (addFileName to_ path name)
  else pure ((to_.fileNameToFileId.lookup path).getD 0, to_)

def nameMismatch (index : Int) (name expected : String) : String :=
  s!"File name at index {index} does not match expected relative path or libName: {name} != {expected}"

/-- A source file has its relative name or that of a default library. -/
def checkFileName (to_ : ToBuildInfo) (file : Text) (fileId : BuildInfoFileId) : Outcome Unit := do
  let name ← to_.buildInfo.fileName fileId
  let expected ← relativeToBuildInfo naming file
  if name = expected then pure ()
  else
    match naming.getDefaultLibFile file with
    | none => .panic (nameMismatch (fileId - 1).toInt name expected)
    | some libFile =>
      if libFile.replaced || name ≠ libFile.name then .panic (nameMismatch (fileId - 1).toInt name expected)
      else pure ()

def addFileInfo (to_ : ToBuildInfo) (file : Text) : Outcome ToBuildInfo :=
  match fileInfos file with
  | none => .panic "file info must exist for every source file in snapshot"
  | some info => do
    let (fileId, to_) ← toFileId naming to_ file
    checkFileName naming to_ file fileId
    pure { to_ with
      buildInfo := { to_.buildInfo with fileInfos := to_.buildInfo.fileInfos ++ [newBuildInfoFileInfo info] } }

/-- The part of `set_file_info_and_emit_signatures` that numbers the source files. -/
def setFileInfo (sourceFiles : List Text) (to_ : ToBuildInfo) : Outcome ToBuildInfo :=
  sourceFiles.foldlM (addFileInfo naming fileInfos)
    { to_ with buildInfo := { to_.buildInfo with fileInfos := [], fileInfosPresent := true } }

/-- A root file, with the id of its source file, which has one. -/
def withFileId (state : List (BuildInfoFileId × Text × Text) × ToBuildInfo) (root : Text × Text) :
    Outcome (List (BuildInfoFileId × Text × Text) × ToBuildInfo) := do
  let (fileId, to_) ← toFileId naming state.2 root.1
  pure (state.1 ++ [(fileId, root)], to_)

def addResolvedRoot (to_ : ToBuildInfo) (file : Text × Text) : Outcome ToBuildInfo := do
  let (root, to_) ← toFileId naming to_ file.2
  let (resolved, to_) ← toFileId naming to_ file.1
  pure { to_ with
    buildInfo := { to_.buildInfo with
      root := addRoot to_.buildInfo.root resolved
      resolvedRoot :=
        if root ≠ resolved then to_.buildInfo.resolvedRoot ++ [⟨resolved, root⟩] else to_.buildInfo.resolvedRoot } }

/-- The roots are a table from source files to the files that were asked for, in any order. -/
def setRootOfIncrementalProgram (roots : List (Text × Text)) (to_ : ToBuildInfo) : Outcome ToBuildInfo := do
  let (keys, to_) ← roots.foldlM (withFileId naming) ([], to_)
  (sortByKey (fun key : BuildInfoFileId × Text × Text => key.1.toInt) keys).foldlM
    (fun to_ key => addResolvedRoot naming to_ key.2) to_

/-- The root files of a command line, by the source files that they resolve to. -/
def collectRootFiles (getParseFileRedirect : Text → Text) (getSourceFile : Text → Option Text)
    (originalPath : Text → Text) (fileNames : List Text) : List (Text × Text) :=
  fileNames.foldl (fun roots fileName =>
    let redirect := getParseFileRedirect fileName
    match if redirect ≠ [] then getSourceFile redirect else getSourceFile fileName with
    | some file => Entries.insert roots file (originalPath fileName)
    | none => roots) []
end

structure BuildInfoRootInfoReader where
  resolvedRootFileInfos : List (Text × BuildInfoFileInfo) := []
  /-- An ordered table. -/
  rootToResolved : List (Text × Text) := []

variable (naming : Naming) (info : BuildInfo)

def resolvedToRoot : Outcome (List (Text × Text)) :=
  info.resolvedRoot.foldlM (fun table entry => do
    let resolved ← info.fileName entry.resolved
    let root ← info.fileName entry.root
    pure (Entries.insert table (toPath naming resolved) (toPath naming root))) []

def readRoot (table : List (Text × Text)) (reader : BuildInfoRootInfoReader) (resolvedRoot : String)
    (fileInfo : Option BuildInfoFileInfo) : BuildInfoRootInfoReader :=
  let resolvedRootPath := toPath naming resolvedRoot
  { rootToResolved :=
      Entries.insert reader.rootToResolved ((table.lookup resolvedRootPath).getD resolvedRootPath) resolvedRootPath
    resolvedRootFileInfos :=
      match fileInfo with
      | some fileInfo => Entries.insert reader.resolvedRootFileInfos resolvedRootPath fileInfo
      | none => reader.resolvedRootFileInfos }

def BuildInfoRoot.fileIds (root : BuildInfoRoot) : List BuildInfoFileId :=
  if root.end_ = 0 then [root.start]
  else (List.range (root.end_.toInt + 1 - root.start.toInt).toNat).map fun k => root.start + Int32.ofNat k

def readFileId (table : List (Text × Text)) (reader : BuildInfoRootInfoReader) (fileId : BuildInfoFileId) :
    Outcome BuildInfoRootInfoReader := do
  let name ← info.fileName fileId
  let fileInfo ← info.fileInfo fileId
  pure (readRoot naming table reader name (some fileInfo))

def readRange (table : List (Text × Text)) (reader : BuildInfoRootInfoReader) (root : BuildInfoRoot) :
    Outcome BuildInfoRootInfoReader :=
  if root.nonIncremental ≠ "" then pure (readRoot naming table reader root.nonIncremental none)
  else root.fileIds.foldlM (readFileId naming info table) reader

def getBuildInfoRootInfoReader : Outcome BuildInfoRootInfoReader := do
  let table ← resolvedToRoot naming info
  info.root.foldlM (readRange naming info table) {}

end TypeScriptRs.Incremental
