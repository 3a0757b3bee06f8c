import TypeScriptRs.Lib.SortedGroups
import TypeScriptRs.Paths.Rebasing
import TypeScriptRs.SourceMap.DecoderSafety

/-! Positions of a generated file and of its sources, looked up in the mappings between them. -/
namespace TypeScriptRs.SourceMap
open Machine Utf8 Paths SortedGroups

structure EcmaLineInfo where
  text : Text
  lineStarts : List Int

def charBoundaryAt (pos : Nat) : String := s!"byte index {pos} is not a char boundary"

def badLineNumber (line count : Nat) : String := s!"Bad line number. Line: {line}, lineStarts.length: {count}."

def badCharacter (line : Nat) (character : Int) : String :=
  s!"Bad UTF-16 character offset. Line: {line}, character: {character}."

/-- The scan of a line for a number of UTF-16 code units; every turn moves on by at least a byte. -/
def scanLine (text : Text) (character : Int) (lineEnd : Nat) : Nat → Int → Nat → Outcome (Int × Nat)
  | 0, utf16, pos => pure (utf16, pos)
  | fuel + 1, utf16, pos =>
    if lineEnd ≤ pos ∨ character ≤ utf16 then pure (utf16, pos)
    else
      match dropBytes text pos with
      | none => .panic (charBoundaryAt pos)
      | some [] => pure (utf16, pos)
      | some (ch :: _) => do
        let utf16 ← checkedAdd utf16 (utf16Size ch)
        scanLine text character lineEnd fuel utf16 (pos + ch.utf8Size)

def computePositionOfLineAndUtf16Character (lineStarts : List Int) (line : Nat) (character : Int) (text : Text)
    (allowEdits : Bool) : Outcome Nat :=
  match lineStarts[line]? with
  | none =>
    if !allowEdits then .panic (badLineNumber line lineStarts.length)
    else
      match lineStarts with
      | [] => pure 0
      | first :: rest => pure (if line = 0 then first.toNat else ((first :: rest).getLastD 0).toNat)
  | some lineStart =>
    let lineStart := lineStart.toNat
    if 0 < character then do
      let lineEnd := (lineStarts[line + 1]?.map Int.toNat).getD (bytes text)
      let scanned ← scanLine text character lineEnd lineEnd 0 lineStart
      if !allowEdits && (scanned.2 = lineEnd && scanned.1 < character) then .panic (badCharacter line character)
      else if allowEdits && bytes text < scanned.2 then pure (bytes text)
      else pure scanned.2
    else if allowEdits && bytes text < lineStart then pure (bytes text)
    else if !allowEdits && bytes text < lineStart then .panic "assertion failed: line_start <= text.len()"
    else pure lineStart

example : computePositionOfLineAndUtf16Character [0, 4] 1 2 "ab\r\ncéd".toList true = .ok 7 := by decide

section
structure Host where
  useCaseSensitiveFileNames : Bool
  getEcmaLineInfo : Text → Option EcmaLineInfo
  toLowercase : Char → Text

structure MappedPosition where
  generatedPosition : Int
  sourcePosition : Int
  sourceIndex : Int
  nameIndex : Int
  deriving DecidableEq

def missingPosition : Int := -1

def MappedPosition.isSourceMappedPosition (m : MappedPosition) : Bool :=
  m.sourceIndex ≠ missingSource && m.sourcePosition ≠ missingPosition

def Mapping.isSourceMapping (m : Mapping) : Bool :=
  m.sourceIndex ≠ missingSource && (m.sourceLine ≠ missingLineOrColumn && m.sourceCharacter ≠ missingLineOrColumn)

def asIndex (x : Int) : Nat := (x % 2 ^ 64).toNat

structure DocumentPositionMapper where
  useCaseSensitiveFileNames : Bool
  sourceFileAbsolutePaths : List Text
  sourceToSourceIndexMap : List (Text × Int)
  generatedAbsoluteFilePath : Text
  generatedMappings : List MappedPosition
  sourceMappings : List (Int × List MappedPosition)

structure DocumentPosition where
  fileName : Text
  pos : Int
  deriving DecidableEq

variable (host : Host) (sourceMap : RawSourceMap) (mapPath : Text)

def generatedAbsoluteFilePath : Text :=
  getNormalizedAbsolutePath sourceMap.file.toList (getDirectoryPath mapPath)

def sourceFileAbsolutePaths : List Text :=
  let mapDirectory := getDirectoryPath mapPath
  let sourceRoot := if sourceMap.sourceRoot.toList = [] then mapDirectory
    else getNormalizedAbsolutePath sourceMap.sourceRoot.toList mapDirectory
  sourceMap.sources.map fun source => getNormalizedAbsolutePath source.toList sourceRoot

/-- A place of a file, missing if the host does not have the file. -/
def positionIn (fileName : Option Text) (line character : Int) : Outcome Int :=
  match fileName.bind host.getEcmaLineInfo with
  | none => pure missingPosition
  | some info => do
    let position ← computePositionOfLineAndUtf16Character info.lineStarts (asIndex line) character info.text true
    pure (i32 position)

def generatedPositionOf (mapping : Mapping) : Outcome Int :=
  positionIn host (some (generatedAbsoluteFilePath sourceMap mapPath)) mapping.generatedLine mapping.generatedCharacter

def sourcePositionOf (mapping : Mapping) : Outcome Int :=
  if mapping.isSourceMapping then
    positionIn host (sourceFileAbsolutePaths sourceMap mapPath)[asIndex mapping.sourceIndex]? mapping.sourceLine
      mapping.sourceCharacter
  else pure missingPosition

def mappedPosition (mapping : Mapping) : Outcome MappedPosition := do
  let generated ← generatedPositionOf host sourceMap mapPath mapping
  let source ← sourcePositionOf host sourceMap mapPath mapping
  pure ⟨generated, source, mapping.sourceIndex, mapping.nameIndex⟩

/-- The mappings of a map, none if the decoder reports an error. They are decoded before the first one is
placed: the order of the two decides nothing but which of two aborts comes first. -/
def decodedMappings : Outcome (List MappedPosition) := do
  let decoded ← (decodeMappings sourceMap.mappings).checkedCollectAll
  let positions ← decoded.1.mapM (mappedPosition host sourceMap mapPath)
  pure (if decoded.2.error.isSome then [] else positions)

def samePosition (a b : MappedPosition) : Bool :=
  a.generatedPosition = b.generatedPosition && (a.sourceIndex = b.sourceIndex && a.sourcePosition = b.sourcePosition)

def sourceIndexMap (paths : List Text) : List (Text × Int) :=
  paths.zipIdx.foldl (fun known path =>
    Entries.insert known (getCanonicalFileName host.toLowercase path.1 host.useCaseSensitiveFileNames) (i32 path.2)) []

def documentPositionMapper (decoded : List MappedPosition) : DocumentPositionMapper where
  useCaseSensitiveFileNames := host.useCaseSensitiveFileNames
  sourceFileAbsolutePaths := sourceFileAbsolutePaths sourceMap mapPath
  sourceToSourceIndexMap := sourceIndexMap host (sourceFileAbsolutePaths sourceMap mapPath)
  generatedAbsoluteFilePath := generatedAbsoluteFilePath sourceMap mapPath
  generatedMappings := dedupBy samePosition (sortByKey MappedPosition.generatedPosition decoded)
  sourceMappings := (groupBy MappedPosition.sourceIndex (decoded.filter MappedPosition.isSourceMappedPosition)).map
    fun entry => (entry.1, dedupBy samePosition (sortByKey MappedPosition.sourcePosition entry.2))

def createDocumentPositionMapper : Outcome DocumentPositionMapper := do
  let decoded ← decodedMappings host sourceMap mapPath
  pure (documentPositionMapper host sourceMap mapPath decoded)
end

namespace DocumentPositionMapper

variable (host : Host) (mapper : DocumentPositionMapper) (loc : DocumentPosition)

def getSourcePosition : Option DocumentPosition :=
  if mapper.generatedMappings = [] then none
  else do
    let targetIndex := partitionPoint (fun m => decide (m.generatedPosition < loc.pos)) mapper.generatedMappings
    let mapping ← mapper.generatedMappings[targetIndex]?
    if !mapping.isSourceMappedPosition then none
    else do
      let fileName ← mapper.sourceFileAbsolutePaths[asIndex mapping.sourceIndex]?
      pure ⟨fileName, mapping.sourcePosition⟩

def sourceIndexOf (fileName : Text) : Option Int :=
  mapper.sourceToSourceIndexMap.lookup
    (getCanonicalFileName host.toLowercase fileName mapper.useCaseSensitiveFileNames)

def getGeneratedPosition : Option DocumentPosition := do
  let sourceIndex ← mapper.sourceIndexOf host loc.fileName
  let sourceMappings ← mapper.sourceMappings.lookup sourceIndex
  if sourceIndex < 0 ∨ mapper.sourceMappings.length ≤ asIndex sourceIndex then none
  else do
    let targetIndex := partitionPoint (fun m => decide (m.sourcePosition < loc.pos)) sourceMappings
    let mapping ← sourceMappings[targetIndex]?
    if mapping.sourceIndex ≠ sourceIndex then none
    else pure ⟨mapper.generatedAbsoluteFilePath, mapping.generatedPosition⟩

end DocumentPositionMapper

end TypeScriptRs.SourceMap
