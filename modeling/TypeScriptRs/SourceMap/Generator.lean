import TypeScriptRs.Lib.HashMap
import TypeScriptRs.Lib.Machine

/-! The source-map generator. Arithmetic is in wrapped signed 32-bit values. -/
namespace TypeScriptRs.SourceMap
open Machine

def sourceIndexNotSet : Int := -1
def nameIndexNotSet : Int := -1
def notSet : Int := -1

structure Generator where
  file : String
  sourceRoot : String
  /-- The sources directory and path options, as the function they stand for. -/
  relativeToSourcesDirectory : String → String
  sources : List String
  sourceMapSources : List String
  sourceToSourceIndexMap : HashMap String Int
  sourcesContent : List (Option String)
  names : List String
  nameToNameIndexMap : HashMap String Int
  mappings : String
  lastGeneratedLine : Int
  lastGeneratedCharacter : Int
  lastSourceIndex : Int
  lastSourceLine : Int
  lastSourceCharacter : Int
  lastNameIndex : Int
  hasLast : Bool
  pendingGeneratedLine : Int
  pendingGeneratedCharacter : Int
  pendingSourceIndex : Int
  pendingSourceLine : Int
  pendingSourceCharacter : Int
  pendingNameIndex : Int
  hasPending : Bool
  hasPendingSource : Bool
  hasPendingName : Bool

structure RawSourceMap where
  version : Int
  file : String
  sourceRoot : String
  sources : List String
  names : List String
  mappings : String
  sourcesContent : List (Option String)

def newGenerator (file sourceRoot : String) (relative : String → String) : Generator where
  file := file
  sourceRoot := sourceRoot
  relativeToSourcesDirectory := relative
  sources := []
  sourceMapSources := []
  sourceToSourceIndexMap := ∅
  sourcesContent := []
  names := []
  nameToNameIndexMap := ∅
  mappings := ""
  lastGeneratedLine := 0
  lastGeneratedCharacter := 0
  lastSourceIndex := 0
  lastSourceLine := 0
  lastSourceCharacter := 0
  lastNameIndex := 0
  hasLast := false
  pendingGeneratedLine := 0
  pendingGeneratedCharacter := 0
  pendingSourceIndex := 0
  pendingSourceLine := 0
  pendingSourceCharacter := 0
  pendingNameIndex := 0
  hasPending := false
  hasPendingSource := false
  hasPendingName := false

def base64FormatEncode (value : Nat) : Outcome Char :=
  if value ≤ 25 then .ok (Char.ofNat (65 + value))
  else if value ≤ 51 then .ok (Char.ofNat (97 + (value - 26)))
  else if value ≤ 61 then .ok (Char.ofNat (48 + (value - 52)))
  else if value = 62 then .ok '+'
  else if value = 63 then .ok '/'
  else .panic "not a base64 value"

namespace Generator

def addSource (g : Generator) (fileName : String) : Int × Generator :=
  let source := g.relativeToSourcesDirectory fileName
  match g.sourceToSourceIndexMap.lookup source with
  | some sourceIndex => (sourceIndex, g)
  | none =>
    let sourceIndex := i32 g.sourceMapSources.length
    (sourceIndex, { g with
      sourceMapSources := g.sourceMapSources ++ [source]
      sources := g.sources ++ [fileName]
      sourceToSourceIndexMap := g.sourceToSourceIndexMap.insert source sourceIndex })

def setSourceContent (g : Generator) (sourceIndex : Int) (content : String) : Outcome Generator :=
  if sourceIndex < 0 ∨ (g.sourceMapSources.length : Int) ≤ sourceIndex then
    .err "sourceIndex is out of range"
  else
    let padding := List.replicate (sourceIndex.toNat + 1 - g.sourcesContent.length) none
    .ok { g with sourcesContent := (g.sourcesContent ++ padding).set sourceIndex.toNat (some content) }

def addName (g : Generator) (name : String) : Int × Generator :=
  match g.nameToNameIndexMap.lookup name with
  | some nameIndex => (nameIndex, g)
  | none =>
    let nameIndex := i32 g.names.length
    (nameIndex, { g with
      names := g.names ++ [name]
      nameToNameIndexMap := g.nameToNameIndexMap.insert name nameIndex })

def isNewGeneratedPosition (g : Generator) (generatedLine generatedCharacter : Int) : Bool :=
  !g.hasPending || g.pendingGeneratedLine != generatedLine
    || g.pendingGeneratedCharacter != generatedCharacter

def isBacktrackingSourcePosition (g : Generator)
    (sourceIndex sourceLine sourceCharacter : Int) : Bool :=
  sourceIndex != sourceIndexNotSet && sourceLine != notSet && sourceCharacter != notSet
    && g.pendingSourceIndex == sourceIndex
    && (decide (g.pendingSourceLine > sourceLine)
      || g.pendingSourceLine == sourceLine && decide (g.pendingSourceCharacter > sourceCharacter))

def shouldCommitMapping (g : Generator) : Bool :=
  g.hasPending
    && (!g.hasLast
      || g.lastGeneratedLine != g.pendingGeneratedLine
      || g.lastGeneratedCharacter != g.pendingGeneratedCharacter
      || g.lastSourceIndex != g.pendingSourceIndex
      || g.lastSourceLine != g.pendingSourceLine
      || g.lastSourceCharacter != g.pendingSourceCharacter
      || g.lastNameIndex != g.pendingNameIndex)

/-- One turn of the digit loop per unit of fuel; seven turns shift out all bits of
a 32-bit value. -/
def appendDigits : Nat → Int → String → Outcome String
  | 0, _, mappings => .ok mappings
  | fuel + 1, inValue, mappings =>
    let currentDigit := (inValue % 32).toNat
    let inValue := inValue / 32
    let currentDigit := if inValue > 0 then currentDigit ||| 32 else currentDigit
    (base64FormatEncode currentDigit).bind fun char =>
      let mappings := mappings.push char
      if inValue ≤ 0 then .ok mappings else appendDigits fuel inValue mappings

def appendBase64Vlq (mappings : String) (inValue : Int) : Outcome String :=
  let inValue := if inValue < 0 then i32 (i32 (i32 (-inValue) * 2) + 1) else i32 (inValue * 2)
  appendDigits 7 inValue mappings

/-- The `while` that opens one line of the output per step of the generated line. -/
def appendLines (mappings : String) (count : Nat) : String :=
  match count with
  | 0 => mappings
  | count + 1 => appendLines (mappings.push ';') count

/-- The branch of a commit that opens lines, or separates mappings of one line. -/
def openLine (g : Generator) : Outcome Generator :=
  if g.lastGeneratedLine < g.pendingGeneratedLine then
    .ok { g with
      mappings := appendLines g.mappings (g.pendingGeneratedLine - g.lastGeneratedLine).toNat
      lastGeneratedLine := g.pendingGeneratedLine
      lastGeneratedCharacter := 0 }
  else if g.lastGeneratedLine ≠ g.pendingGeneratedLine then
    .panic "generatedLine cannot backtrack"
  else if g.hasLast then .ok { g with mappings := g.mappings.push ',' }
  else .ok g

/-- The source fields of a commit, and the name field after them. -/
def appendSource (g : Generator) : Outcome Generator :=
  (appendBase64Vlq g.mappings (i32 (g.pendingSourceIndex - g.lastSourceIndex))).bind fun mappings =>
  let g := { g with mappings := mappings, lastSourceIndex := g.pendingSourceIndex }
  (appendBase64Vlq g.mappings (i32 (g.pendingSourceLine - g.lastSourceLine))).bind fun mappings =>
  let g := { g with mappings := mappings, lastSourceLine := g.pendingSourceLine }
  (appendBase64Vlq g.mappings
    (i32 (g.pendingSourceCharacter - g.lastSourceCharacter))).bind fun mappings =>
  let g := { g with mappings := mappings, lastSourceCharacter := g.pendingSourceCharacter }
  if g.hasPendingName then
    (appendBase64Vlq g.mappings (i32 (g.pendingNameIndex - g.lastNameIndex))).bind fun mappings =>
    .ok { g with mappings := mappings, lastNameIndex := g.pendingNameIndex }
  else .ok g

def commitPendingMapping (g : Generator) : Outcome Generator :=
  if !g.shouldCommitMapping then .ok g
  else
    g.openLine.bind fun g =>
    (appendBase64Vlq g.mappings
      (i32 (g.pendingGeneratedCharacter - g.lastGeneratedCharacter))).bind fun mappings =>
    let g := { g with mappings := mappings, lastGeneratedCharacter := g.pendingGeneratedCharacter }
    (if g.hasPendingSource then g.appendSource else .ok g).bind fun g =>
    .ok { g with hasLast := true }

/-- Start a new pending mapping at a generated position, or keep the current one. -/
def startPending (g : Generator) (generatedLine generatedCharacter : Int) : Generator :=
  { g with
    pendingGeneratedLine := generatedLine
    pendingGeneratedCharacter := generatedCharacter
    hasPendingSource := false
    hasPendingName := false
    hasPending := true }

def setPendingSource (g : Generator)
    (sourceIndex sourceLine sourceCharacter nameIndex : Int) : Generator :=
  if sourceIndex ≠ sourceIndexNotSet ∧ sourceLine ≠ notSet ∧ sourceCharacter ≠ notSet then
    let g := { g with
      pendingSourceIndex := sourceIndex
      pendingSourceLine := sourceLine
      pendingSourceCharacter := sourceCharacter
      hasPendingSource := true }
    if nameIndex ≠ nameIndexNotSet then
      { g with pendingNameIndex := nameIndex, hasPendingName := true }
    else g
  else g

def addMapping (g : Generator)
    (generatedLine generatedCharacter sourceIndex sourceLine sourceCharacter nameIndex : Int) :
    Outcome Generator :=
  if g.isNewGeneratedPosition generatedLine generatedCharacter
      || g.isBacktrackingSourcePosition sourceIndex sourceLine sourceCharacter then
    g.commitPendingMapping.bind fun g =>
    .ok ((g.startPending generatedLine generatedCharacter).setPendingSource
      sourceIndex sourceLine sourceCharacter nameIndex)
  else .ok (g.setPendingSource sourceIndex sourceLine sourceCharacter nameIndex)

def addGeneratedMapping (g : Generator) (generatedLine generatedCharacter : Int) :
    Outcome Generator :=
  if generatedLine < g.pendingGeneratedLine then .err "generatedLine cannot backtrack"
  else if generatedCharacter < 0 then .err "generatedCharacter cannot be negative"
  else g.addMapping generatedLine generatedCharacter sourceIndexNotSet notSet notSet nameIndexNotSet

def validateSourceMappingArgs (g : Generator)
    (generatedLine generatedCharacter sourceIndex sourceLine sourceCharacter : Int) : Outcome Unit :=
  if generatedLine < g.pendingGeneratedLine then .err "generatedLine cannot backtrack"
  else if generatedCharacter < 0 then .err "generatedCharacter cannot be negative"
  else if sourceIndex < 0 ∨ (g.sourceMapSources.length : Int) ≤ sourceIndex then
    .err "sourceIndex is out of range"
  else if sourceLine < 0 then .err "sourceLine cannot be negative"
  else if sourceCharacter < 0 then .err "sourceCharacter cannot be negative"
  else .ok ()

def addSourceMapping (g : Generator)
    (generatedLine generatedCharacter sourceIndex sourceLine sourceCharacter : Int) :
    Outcome Generator :=
  (g.validateSourceMappingArgs generatedLine generatedCharacter sourceIndex sourceLine
    sourceCharacter).bind fun _ =>
  g.addMapping generatedLine generatedCharacter sourceIndex sourceLine sourceCharacter nameIndexNotSet

def addNamedSourceMapping (g : Generator)
    (generatedLine generatedCharacter sourceIndex sourceLine sourceCharacter nameIndex : Int) :
    Outcome Generator :=
  (g.validateSourceMappingArgs generatedLine generatedCharacter sourceIndex sourceLine
    sourceCharacter).bind fun _ =>
  if nameIndex < 0 ∨ (g.names.length : Int) ≤ nameIndex then .err "nameIndex is out of range"
  else
    g.addMapping generatedLine generatedCharacter sourceIndex sourceLine sourceCharacter nameIndex

def rawSourceMap (g : Generator) : Outcome (RawSourceMap × Generator) :=
  g.commitPendingMapping.bind fun g =>
  .ok ({ version := 3, file := g.file, sourceRoot := g.sourceRoot, sources := g.sourceMapSources,
         names := g.names, mappings := g.mappings, sourcesContent := g.sourcesContent }, g)

end Generator

end TypeScriptRs.SourceMap
