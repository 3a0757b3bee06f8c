import TypeScriptRs.Api.Table

/-! Reading a tree back from its binary encoding. -/
namespace TypeScriptRs.Api
open LittleEndian Frames
open Syntax (Kind)

inductive DecodeError where
  | tooShort (length : Nat)
  | unsupportedVersion (version : UInt8)
  | offsetsExceedLength (length : Nat)
  | offsetsOutOfOrder (strTable strData extData nodeOff : Nat)
  | noNodes
  | stringOutOfBounds (index : Nat)
  | stringNotUtf8 (index : Nat)
  | unknownStringNode (kind : Kind)
  | unknownExtendedNode (kind : Kind)
  | atNode (index : Nat) (kind : Kind) (error : DecodeError)

/-- How decoding fails: with an error, or with a panic of the factory. -/
inductive Failure where
  | error (error : DecodeError)
  | panic

/-- A decoded node, by the factory function that makes it. A source file has no statements and a token at its end. -/
inductive Decoded where
  | text (kind : Kind) (text : String)
  | literal (kind : Kind) (text : String) (flags : UInt32)
  | template (kind : Kind) (text rawText : String) (flags : UInt32)
  | sourceFile (text fileName path : String) (jsx force : Bool)
  | token (kind : Kind)
  deriving DecidableEq

structure AstDecoder where
  raw : List UInt8
  strTable : Nat
  strData : Nat
  extData : Nat
  nodeOff : Nat
  nodeCount : Nat

def nodeOffsetData : Nat := 20
def nodeDataTypeMask : Nat := 0xc0000000
def nodeDataStringIndexMask : Nat := 0x00ffffff
def headerOffsetParseOptions : Nat := 20

/-- `Kind::next`, where the last kind comes after itself. -/
def nextKind (kind : Kind) : Kind := if kind = .count then .count else Kind.ofNat (kind.ctorIdx + 1)

def kindFromU32 (value : Nat) : Kind := if value > Kind.count.ctorIdx then .unknown else nextKind^[value] .unknown

def fromUtf8 (data : List UInt8) : Option String := String.fromUTF8? ⟨data.toArray⟩

namespace AstDecoder

def new (data : List UInt8) : Except Failure AstDecoder :=
  let version := data.getD 3 0
  let strTable := readLe32 data headerOffsetStringOffsets
  let strData := readLe32 data headerOffsetStringData
  let extData := readLe32 data headerOffsetExtendedData
  let nodeOff := readLe32 data headerOffsetNodes
  let dataLen := data.length % 2 ^ 32
  if data.length < headerSize then .error (.error (.tooShort data.length))
  else if version.toNat ≠ protocolVersion then .error (.error (.unsupportedVersion version))
  else if strTable > dataLen ∨ strData > dataLen ∨ extData > dataLen ∨ nodeOff > dataLen then
    .error (.error (.offsetsExceedLength dataLen))
  else if ¬(strTable ≤ strData ∧ strData ≤ extData ∧ extData ≤ nodeOff) then
    .error (.error (.offsetsOutOfOrder strTable strData extData nodeOff))
  else .ok ⟨data, strTable, strData, extData, nodeOff, (data.length - nodeOff) / nodeSize⟩

def nodeField (d : AstDecoder) (index field : Nat) : Nat := readLe32 d.raw (d.nodeOff + index * nodeSize + field)

def getString (d : AstDecoder) (index : Nat) : Except DecodeError String :=
  let offBase := d.strTable + index * 4
  let start := d.strData + readLe32 d.raw offBase
  let stop := d.strData + readLe32 d.raw (offBase + 4)
  if start ≤ stop ∧ stop ≤ d.raw.length then
    match fromUtf8 (slice d.raw start stop) with
    | some text => .ok text
    | none => .error (.stringNotUtf8 index)
  else .error (.stringOutOfBounds index)

def orFail {α : Type} : Except DecodeError α → Except Failure α
  | .ok a => .ok a
  | .error e => .error (.error e)

def createStringNode (d : AstDecoder) (kind : Kind) (data : Nat) : Except Failure Decoded := do
  let text ← orFail (d.getString (data &&& nodeDataStringIndexMask))
  if kind ∈ [.identifier, .privateIdentifier, .jsxText] then return .text kind text
  else .error (.error (.unknownStringNode kind))

def decodeSourceFile (d : AstDecoder) (data : Nat) : Except Failure Decoded := do
  let extOff := d.extData + (data &&& nodeDataStringIndexMask)
  let text ← orFail (d.getString (readLe32 d.raw extOff))
  let fileName ← orFail (d.getString (readLe32 d.raw (extOff + 4)))
  let path ← orFail (d.getString (readLe32 d.raw (extOff + 8)))
  let parseOpts := readLe32 d.raw headerOffsetParseOptions
  if acceptsFileName fileName then
    return .sourceFile text fileName path (parseOpts &&& 1 ≠ 0) (parseOpts &&& 2 ≠ 0)
  else .error .panic

def createExtendedNode (d : AstDecoder) (kind : Kind) (data : Nat) : Except Failure Decoded := do
  let extOff := d.extData + (data &&& nodeDataStringIndexMask)
  let textIndex := readLe32 d.raw extOff
  if kind = .sourceFile then d.decodeSourceFile data
  else if kind ∈ [.stringLiteral, .numericLiteral, .bigIntLiteral, .regularExpressionLiteral,
      .noSubstitutionTemplateLiteral] then
    return .literal kind (← orFail (d.getString textIndex)) (UInt32.ofNat (readLe32 d.raw (extOff + 4)))
  else if kind ∈ [.templateHead, .templateMiddle, .templateTail] then
    let text ← orFail (d.getString textIndex)
    let rawText ← orFail (d.getString (readLe32 d.raw (extOff + 4)))
    return .template kind text rawText (UInt32.ofNat (readLe32 d.raw (extOff + 8)))
  else .error (.error (.unknownExtendedNode kind))

def createTokenNode (kind : Kind) : Except Failure Decoded := .ok (.token kind)

def createNode (d : AstDecoder) (index : Nat) : Except Failure Decoded :=
  let kind := kindFromU32 (d.nodeField index nodeOffsetKind)
  let data := d.nodeField index nodeOffsetData
  let dataType := data &&& nodeDataTypeMask
  let created := if dataType = nodeDataTypeString then d.createStringNode kind data
    else if dataType = nodeDataTypeExtendedData then d.createExtendedNode kind data
    else createTokenNode kind
  match created with
  | .error (.error e) => .error (.error (.atNode index kind e))
  | result => result

def decode (d : AstDecoder) : Except Failure Decoded :=
  if d.nodeCount < 2 then .error (.error .noNodes) else d.createNode 1

end AstDecoder

def decodeNodes (data : List UInt8) : Except Failure Decoded := do
  let decoder ← AstDecoder.new data
  decoder.decode

inductive Shape where
  | mk (kind : Kind) (texts : List String) (tokenFlags : List UInt32) (children : List Shape)

def Payload.texts : Payload → List String
  | .identifier text | .privateIdentifier text | .jsxText text _ | .stringLiteral text _ | .numericLiteral text _
  | .bigIntLiteral text _ | .regularExpressionLiteral text _ | .noSubstitutionTemplateLiteral text _ => [text]
  | .templateHead text rawText _ | .templateMiddle text rawText _ | .templateTail text rawText _ => [text, rawText]
  | .sourceFile data => [data.text]
  | .plain _ => []

def Payload.tokenFlags : Payload → List UInt32
  | .stringLiteral _ flags | .numericLiteral _ flags | .bigIntLiteral _ flags | .regularExpressionLiteral _ flags
  | .noSubstitutionTemplateLiteral _ flags | .templateHead _ _ flags | .templateMiddle _ _ flags
  | .templateTail _ _ flags => [flags]
  | .identifier _ | .privateIdentifier _ | .jsxText _ _ | .sourceFile _ | .plain _ => []

mutual
def Node.shape : Node → Shape
  | .mk _ payload _ _ _ children => .mk payload.kind payload.texts payload.tokenFlags (childShapes children)

def nodeShapes : List Node → List Shape
  | [] => []
  | node :: nodes => node.shape :: nodeShapes nodes

def Child.shapes : Child → List Shape
  | .node child => [child.shape]
  | .list _ _ nodes | .modifiers _ _ nodes => nodeShapes nodes

/-- The children of a node in their order, those of lists included. -/
def childShapes : List Child → List Shape
  | [] => []
  | child :: children => child.shapes ++ childShapes children
end

def endOfFileShape : Shape := .mk .endOfFile [] [] []

def Decoded.shape : Decoded → Shape
  | .text kind value => .mk kind [value] [] []
  | .literal kind value flags => .mk kind [value] [flags] []
  | .template kind value rawValue flags => .mk kind [value, rawValue] [flags] []
  | .sourceFile value _ _ _ _ => .mk .sourceFile [value] [] [endOfFileShape]
  | .token kind => .mk kind [] [] []

end TypeScriptRs.Api
