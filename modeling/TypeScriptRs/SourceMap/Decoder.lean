import TypeScriptRs.Lib.Machine

/-! The mappings decoder reads the bytes of the mappings string by position. -/
namespace TypeScriptRs.SourceMap
open Machine

structure Mapping where
  generatedLine : Int
  generatedCharacter : Int
  sourceIndex : Int
  sourceLine : Int
  sourceCharacter : Int
  nameIndex : Int
  deriving DecidableEq, Repr

def missingSource : Int := -1
def missingName : Int := -1
def missingLineOrColumn : Int := -1

def asBytes (text : String) : List UInt8 := text.toByteArray.data.toList

structure MappingsDecoder where
  mappings : List UInt8
  done : Bool
  pos : Nat
  generatedLine : Int
  generatedCharacter : Int
  sourceIndex : Int
  sourceLine : Int
  sourceCharacter : Int
  nameIndex : Int
  error : Option String
  deriving DecidableEq, Repr

def decodeMappings (mappings : String) : MappingsDecoder where
  mappings := asBytes mappings
  done := false
  pos := 0
  generatedLine := 0
  generatedCharacter := 0
  sourceIndex := 0
  sourceLine := 0
  sourceCharacter := 0
  nameIndex := 0
  error := none

def base64FormatDecode (ch : UInt8) : Int :=
  if 65 ≤ ch ∧ ch ≤ 90 then (ch.toNat - 65 : Nat)
  else if 97 ≤ ch ∧ ch ≤ 122 then (ch.toNat - 97 + 26 : Nat)
  else if 48 ≤ ch ∧ ch ≤ 57 then (ch.toNat - 48 + 52 : Nat)
  else if ch = 43 then 62
  else if ch = 47 then 63
  else -1

namespace MappingsDecoder

def captureMapping (d : MappingsDecoder) (hasSource hasName : Bool) : Mapping where
  generatedLine := d.generatedLine
  generatedCharacter := d.generatedCharacter
  sourceIndex := if hasSource then d.sourceIndex else missingSource
  sourceLine := if hasSource then d.sourceLine else missingLineOrColumn
  sourceCharacter := if hasSource then d.sourceCharacter else missingLineOrColumn
  nameIndex := if hasName then d.nameIndex else missingName

def stopIterating (d : MappingsDecoder) : Option Mapping × MappingsDecoder :=
  (none, { d with done := true })

def setError (d : MappingsDecoder) (message : String) : MappingsDecoder :=
  { d with error := some message }

def setErrorAndStopIterating (d : MappingsDecoder) (message : String) :
    Option Mapping × MappingsDecoder :=
  (d.setError message).stopIterating

def hasReportedError (d : MappingsDecoder) : Bool := d.error.isSome

def isSourceMappingSegmentEnd (d : MappingsDecoder) : Bool :=
  match d.mappings[d.pos]? with
  | none => true
  | some ch => ch == 44 || ch == 59

/-- The digit loop, with one unit of fuel for each byte that is left: no fuel is
exactly the position past the end of the string. Digits are or-ed into a 32-bit
register, whose sign is read only when the number is complete. -/
def vlqDigits : Nat → Nat → Nat → MappingsDecoder → Int × MappingsDecoder
  | 0, _, _, d =>
    (-1, d.setError "Error in decoding base64VLQFormatDecode, past the mapping string")
  | fuel + 1, shiftCount, value, d =>
    match d.mappings[d.pos]? with
    | none => (-1, d.setError "Error in decoding base64VLQFormatDecode, past the mapping string")
    | some ch =>
      let currentByte := base64FormatDecode ch
      let d := { d with pos := d.pos + 1 }
      if currentByte = -1 then (-1, d.setError "Invalid character in VLQ")
      else
        let digit := currentByte.toNat
        let value := (value ||| (digit &&& 31) <<< (shiftCount % 32)) % 2 ^ 32
        if digit &&& 32 ≠ 0 then vlqDigits fuel (shiftCount + 5) value d
        else
          let half := i32 value / 2
          (if value % 2 = 0 then half else i32 (-half), d)

def base64VlqFormatDecode (d : MappingsDecoder) : Int × MappingsDecoder :=
  vlqDigits (d.mappings.length - d.pos) 0 0 d

def nextName (d : MappingsDecoder) : Option Mapping × MappingsDecoder :=
  if d.isSourceMappingSegmentEnd then (some (d.captureMapping true false), d)
  else
    let (delta, d) := d.base64VlqFormatDecode
    let d := { d with nameIndex := i32 (d.nameIndex + delta) }
    if d.hasReportedError then d.stopIterating
    else if d.nameIndex < 0 then d.setErrorAndStopIterating "Invalid nameIndex found"
    else if !d.isSourceMappingSegmentEnd then
      d.setErrorAndStopIterating "Unsupported Error Format: Entries after nameIndex"
    else (some (d.captureMapping true true), d)

def nextSourceCharacter (d : MappingsDecoder) : Option Mapping × MappingsDecoder :=
  let (delta, d) := d.base64VlqFormatDecode
  let d := { d with sourceCharacter := i32 (d.sourceCharacter + delta) }
  if d.hasReportedError then d.stopIterating
  else if d.sourceCharacter < 0 then d.setErrorAndStopIterating "Invalid sourceCharacter found"
  else d.nextName

def nextSourceLine (d : MappingsDecoder) : Option Mapping × MappingsDecoder :=
  let (delta, d) := d.base64VlqFormatDecode
  let d := { d with sourceLine := i32 (d.sourceLine + delta) }
  if d.hasReportedError then d.stopIterating
  else if d.sourceLine < 0 then d.setErrorAndStopIterating "Invalid sourceLine found"
  else if d.isSourceMappingSegmentEnd then
    d.setErrorAndStopIterating "Unsupported Format: No entries after sourceLine"
  else d.nextSourceCharacter

/-- The source fields of a segment, absent when it ends after the first one. -/
def nextSource (d : MappingsDecoder) : Option Mapping × MappingsDecoder :=
  if d.isSourceMappingSegmentEnd then (some (d.captureMapping false false), d)
  else
    let (delta, d) := d.base64VlqFormatDecode
    let d := { d with sourceIndex := i32 (d.sourceIndex + delta) }
    if d.hasReportedError then d.stopIterating
    else if d.sourceIndex < 0 then d.setErrorAndStopIterating "Invalid sourceIndex found"
    else if d.isSourceMappingSegmentEnd then
      d.setErrorAndStopIterating "Unsupported Format: No entries after sourceIndex"
    else d.nextSourceLine

def nextSegment (d : MappingsDecoder) : Option Mapping × MappingsDecoder :=
  let (delta, d) := d.base64VlqFormatDecode
  let d := { d with generatedCharacter := i32 (d.generatedCharacter + delta) }
  if d.hasReportedError then d.stopIterating
  else if d.generatedCharacter < 0 then
    d.setErrorAndStopIterating "Invalid generatedCharacter found"
  else d.nextSource

/-- Separators are skipped one byte at a time; the fuel is the number of bytes left. -/
def nextMappingLoop : Nat → MappingsDecoder → Option Mapping × MappingsDecoder
  | 0, d => d.stopIterating
  | fuel + 1, d =>
    match d.mappings[d.pos]? with
    | none => d.stopIterating
    | some ch =>
      if ch = 59 then
        nextMappingLoop fuel
          { d with generatedLine := i32 (d.generatedLine + 1), generatedCharacter := 0, pos := d.pos + 1 }
      else if ch = 44 then nextMappingLoop fuel { d with pos := d.pos + 1 }
      else d.nextSegment

def nextMapping (d : MappingsDecoder) : Option Mapping × MappingsDecoder :=
  if d.done then d.stopIterating else nextMappingLoop (d.mappings.length - d.pos) d

/-- The iterator run to its end. A returned mapping consumes at least one byte, so
fuel above the number of bytes left is never used up. -/
def collect : Nat → MappingsDecoder → List Mapping × MappingsDecoder
  | 0, d => ([], d)
  | fuel + 1, d =>
    match d.nextMapping with
    | (none, d) => ([], d)
    | (some m, d) =>
      let (rest, d) := collect fuel d
      (m :: rest, d)

def collectAll (d : MappingsDecoder) : List Mapping × MappingsDecoder :=
  d.collect (d.mappings.length + 1)

end MappingsDecoder

end TypeScriptRs.SourceMap
