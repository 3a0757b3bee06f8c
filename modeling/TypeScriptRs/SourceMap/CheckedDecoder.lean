import TypeScriptRs.SourceMap.DecoderText

/-! What a string of mappings says, in exact numbers, as far as it is well formed. -/
namespace TypeScriptRs.SourceMap
open Machine

def shiftOverflow : String := "attempt to shift left with overflow"
def addOverflow : String := "attempt to add with overflow"

def checkedAdd (a b : Int) : Outcome Int :=
  if -2 ^ 31 ≤ a + b ∧ a + b < 2 ^ 31 then .ok (a + b) else .panic addOverflow

/-- The value of a number's register: its lowest bit is the sign. -/
def signedRegister (value : Nat) : Int := if value % 2 = 0 then i32 value / 2 else i32 (-(i32 value / 2))

def decodeBytes (bytes : List UInt8) : MappingsDecoder where
  mappings := bytes
  done := false
  pos := 0
  generatedLine := 0
  generatedCharacter := 0
  sourceIndex := 0
  sourceLine := 0
  sourceCharacter := 0
  nameIndex := 0
  error := none

namespace MappingsDecoder

def checkedDigits : Nat → Nat → Nat → MappingsDecoder → Outcome (Int × MappingsDecoder)
  | 0, _, _, d =>
    .ok (-1, d.setError "Error in decoding base64VLQFormatDecode, past the mapping string")
  | fuel + 1, shiftCount, value, d =>
    match d.mappings[d.pos]? with
    | none => .ok (-1, d.setError "Error in decoding base64VLQFormatDecode, past the mapping string")
    | some ch =>
      let currentByte := base64FormatDecode ch
      let d := { d with pos := d.pos + 1 }
      if currentByte = -1 then .ok (-1, d.setError "Invalid character in VLQ")
      else if 32 ≤ shiftCount then .panic shiftOverflow
      else
        let digit := currentByte.toNat
        let value := (value ||| (digit &&& 31) <<< shiftCount) % 2 ^ 32
        if digit &&& 32 ≠ 0 then checkedDigits fuel (shiftCount + 5) value d
        else .ok (signedRegister value, d)

def checkedVlq (d : MappingsDecoder) : Outcome (Int × MappingsDecoder) :=
  checkedDigits (d.mappings.length - d.pos) 0 0 d

/-- One field of a segment: its delta is added to a running total. -/
def checkedField (d : MappingsDecoder) (total : MappingsDecoder → Int)
    (store : MappingsDecoder → Int → MappingsDecoder) (message : String)
    (rest : MappingsDecoder → Outcome (Option Mapping × MappingsDecoder)) : Outcome (Option Mapping × MappingsDecoder) :=
  d.checkedVlq.bind fun number =>
  (checkedAdd (total number.2) number.1).bind fun sum =>
  let d := store number.2 sum
  if d.hasReportedError then .ok d.stopIterating
  else if sum < 0 then .ok (d.setErrorAndStopIterating message)
  else rest d

def checkedName (d : MappingsDecoder) : Outcome (Option Mapping × MappingsDecoder) :=
  if d.isSourceMappingSegmentEnd then .ok (some (d.captureMapping true false), d)
  else
    d.checkedField nameIndex (fun d x => { d with nameIndex := x }) "Invalid nameIndex found" fun d =>
      if !d.isSourceMappingSegmentEnd then
        .ok (d.setErrorAndStopIterating "Unsupported Error Format: Entries after nameIndex")
      else .ok (some (d.captureMapping true true), d)

def checkedSourceCharacter (d : MappingsDecoder) : Outcome (Option Mapping × MappingsDecoder) :=
  d.checkedField sourceCharacter (fun d x => { d with sourceCharacter := x }) "Invalid sourceCharacter found"
    checkedName

def checkedSourceLine (d : MappingsDecoder) : Outcome (Option Mapping × MappingsDecoder) :=
  d.checkedField sourceLine (fun d x => { d with sourceLine := x }) "Invalid sourceLine found" fun d =>
    if d.isSourceMappingSegmentEnd then
      .ok (d.setErrorAndStopIterating "Unsupported Format: No entries after sourceLine")
    else d.checkedSourceCharacter

def checkedSource (d : MappingsDecoder) : Outcome (Option Mapping × MappingsDecoder) :=
  if d.isSourceMappingSegmentEnd then .ok (some (d.captureMapping false false), d)
  else
    d.checkedField sourceIndex (fun d x => { d with sourceIndex := x }) "Invalid sourceIndex found" fun d =>
      if d.isSourceMappingSegmentEnd then
        .ok (d.setErrorAndStopIterating "Unsupported Format: No entries after sourceIndex")
      else d.checkedSourceLine

def checkedSegment (d : MappingsDecoder) : Outcome (Option Mapping × MappingsDecoder) :=
  d.checkedField generatedCharacter (fun d x => { d with generatedCharacter := x })
    "Invalid generatedCharacter found" checkedSource

def checkedLoop : Nat → MappingsDecoder → Outcome (Option Mapping × MappingsDecoder)
  | 0, d => .ok d.stopIterating
  | fuel + 1, d =>
    match d.mappings[d.pos]? with
    | none => .ok d.stopIterating
    | some ch =>
      if ch = 59 then
        (checkedAdd d.generatedLine 1).bind fun line =>
        checkedLoop fuel { d with generatedLine := line, generatedCharacter := 0, pos := d.pos + 1 }
      else if ch = 44 then checkedLoop fuel { d with pos := d.pos + 1 }
      else d.checkedSegment

def checkedMapping (d : MappingsDecoder) : Outcome (Option Mapping × MappingsDecoder) :=
  if d.done then .ok d.stopIterating else checkedLoop (d.mappings.length - d.pos) d

def checkedCollect : Nat → MappingsDecoder → Outcome (List Mapping × MappingsDecoder)
  | 0, d => .ok ([], d)
  | fuel + 1, d =>
    d.checkedMapping.bind fun next =>
    match next.1 with
    | none => .ok ([], next.2)
    | some m => (checkedCollect fuel next.2).bind fun later => .ok (m :: later.1, later.2)

def checkedCollectAll (d : MappingsDecoder) : Outcome (List Mapping × MappingsDecoder) :=
  d.checkedCollect (d.mappings.length + 1)

end MappingsDecoder

/-! What a string of mappings says, in exact numbers: how long its numbers are, and the totals
that they add up to, as far as it is well formed. -/

inductive Quantity where
  | digits (count : Nat)
  | total (value : Int)
  deriving DecidableEq

def Quantity.Fits : Quantity → Prop
  | .digits count => count ≤ 7
  | .total value => value < 2 ^ 31

/-- The digits of the number at the start, and what follows it if it is complete. -/
def digitRun : List UInt8 → List Nat × Option (List UInt8)
  | [] => ([], none)
  | ch :: rest =>
    if base64FormatDecode ch = -1 then ([], none)
    else if (base64FormatDecode ch).toNat &&& 32 ≠ 0 then
      ((base64FormatDecode ch).toNat :: (digitRun rest).1, (digitRun rest).2)
    else ([(base64FormatDecode ch).toNat], some rest)

def register : Nat → Nat → List Nat → Nat
  | _, value, [] => value
  | shift, value, digit :: rest => register (shift + 5) ((value ||| (digit &&& 31) <<< shift) % 2 ^ 32) rest

def numberOf (digits : List Nat) : Int := signedRegister (register 0 0 digits)

def endsSegment : List UInt8 → Bool
  | [] => true
  | ch :: _ => ch == 44 || ch == 59

def addNumber (bytes : List UInt8) (total : Int) (next : Int → List UInt8 → List Quantity) : List Quantity :=
  .digits (digitRun bytes).1.length ::
    match (digitRun bytes).2 with
    | none => []
    | some rest =>
      let sum := total + numberOf (digitRun bytes).1
      .total sum :: if sum < 0 then [] else next sum rest

abbrev Later := Running → List UInt8 → List Quantity

def nameQuantities (r : Running) (bytes : List UInt8) (next : Later) : List Quantity :=
  if endsSegment bytes then next r bytes
  else addNumber bytes r.nameIndex fun x rest => if endsSegment rest then next { r with nameIndex := x } rest else []

def sourceCharacterQuantities (r : Running) (bytes : List UInt8) (next : Later) : List Quantity :=
  addNumber bytes r.sourceCharacter fun x rest => nameQuantities { r with sourceCharacter := x } rest next

def sourceLineQuantities (r : Running) (bytes : List UInt8) (next : Later) : List Quantity :=
  addNumber bytes r.sourceLine fun x rest =>
    if endsSegment rest then [] else sourceCharacterQuantities { r with sourceLine := x } rest next

def sourceQuantities (r : Running) (bytes : List UInt8) (next : Later) : List Quantity :=
  if endsSegment bytes then next r bytes
  else addNumber bytes r.sourceIndex fun x rest =>
    if endsSegment rest then [] else sourceLineQuantities { r with sourceIndex := x } rest next

def segmentQuantities (r : Running) (bytes : List UInt8) (next : Later) : List Quantity :=
  addNumber bytes r.character fun x rest => sourceQuantities { r with character := x } rest next

def mappingQuantities (r : Running) (bytes : List UInt8) (next : Later) : List Quantity :=
  match bytes with
  | [] => []
  | ch :: rest =>
    if ch = 59 then .total (r.line + 1) :: mappingQuantities { r with line := r.line + 1, character := 0 } rest next
    else if ch = 44 then mappingQuantities r rest next
    else segmentQuantities r (ch :: rest) next

def quantities : Nat → Running → List UInt8 → List Quantity
  | 0, _, _ => []
  | fuel + 1, r, bytes => mappingQuantities r bytes (quantities fuel)

def allQuantities (bytes : List UInt8) : List Quantity := quantities (bytes.length + 1) .start bytes

end TypeScriptRs.SourceMap
