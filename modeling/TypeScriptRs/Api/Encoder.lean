import TypeScriptRs.Lib.Frames
import TypeScriptRs.Lib.HashMap
import TypeScriptRs.Lib.LittleEndian
import TypeScriptRs.Paths.SinglePass
import TypeScriptRs.Syntax.Token

/-! The binary encoding of a syntax tree as a table of records. A panic of the source is `none`. -/
namespace TypeScriptRs.Api
open LittleEndian Machine Frames
open Syntax (Kind)

abbrev NodeId := Nat

def nodeDataTypeChildren : Nat := 0 <<< 30
def nodeDataTypeString : Nat := 1 <<< 30
def nodeDataTypeExtendedData : Nat := 2 <<< 30

def getNodeDataType (kind : Kind) : Nat :=
  if kind ∈ [.identifier, .privateIdentifier, .jsxText] then nodeDataTypeString
  else if kind ∈ [.stringLiteral, .numericLiteral, .bigIntLiteral, .regularExpressionLiteral,
      .noSubstitutionTemplateLiteral, .templateHead, .templateMiddle, .templateTail, .sourceFile] then
    nodeDataTypeExtendedData
  else nodeDataTypeChildren

structure FileReference where
  pos : Int
  end_ : Int
  fileName : String
  resolutionMode : Nat
  preserve : Bool

def normalizePath (path : Utf8.Text) : Utf8.Text :=
  let path := Paths.normalizeSlashes path
  match Paths.simpleNormalizePath path with
  | some normalized => normalized
  | none =>
    let result := Paths.getNormalizedAbsolutePath path []
    if Paths.hasTrailingDirectorySeparator path && !Paths.hasTrailingDirectorySeparator result then result ++ ['/']
    else result

/-- What `new_source_file` asks of a file name, which panics otherwise. -/
def acceptsFileName (fileName : String) : Bool :=
  Paths.getEncodedRootLength fileName.toList ≠ 0 && normalizePath fileName.toList = fileName.toList

structure SourceFileData where
  text : String
  fileName : String
  accepted : acceptsFileName fileName = true
  path : String
  languageVariant : Nat
  scriptKind : Nat
  referencedFiles : List FileReference
  typeReferenceDirectives : List FileReference
  libReferenceDirectives : List FileReference
  hash : Nat
  jsx : Bool
  force : Bool
  imports : List NodeId
  moduleAugmentations : List NodeId
  ambientModuleNames : List String
  externalModuleIndicator : Option NodeId

/-- A node of a kind without texts of its own. Its properties are the bits that `get_node_common_data` and
`get_children_property_mask` find in its fields. -/
structure PlainNode where
  kind : Kind
  plain : getNodeDataType kind = nodeDataTypeChildren
  common : Fin 64
  children : Fin 256

inductive Payload where
  | identifier (text : String)
  | privateIdentifier (text : String)
  | jsxText (text : String) (containsOnlyTriviaWhiteSpaces : Bool)
  | stringLiteral (text : String) (tokenFlags : UInt32)
  | numericLiteral (text : String) (tokenFlags : UInt32)
  | bigIntLiteral (text : String) (tokenFlags : UInt32)
  | regularExpressionLiteral (text : String) (tokenFlags : UInt32)
  | noSubstitutionTemplateLiteral (text : String) (templateFlags : UInt32)
  | templateHead (text rawText : String) (templateFlags : UInt32)
  | templateMiddle (text rawText : String) (templateFlags : UInt32)
  | templateTail (text rawText : String) (templateFlags : UInt32)
  | sourceFile (data : SourceFileData)
  | plain (node : PlainNode)

def Payload.kind : Payload → Kind
  | .identifier _ => .identifier
  | .privateIdentifier _ => .privateIdentifier
  | .jsxText _ _ => .jsxText
  | .stringLiteral _ _ => .stringLiteral
  | .numericLiteral _ _ => .numericLiteral
  | .bigIntLiteral _ _ => .bigIntLiteral
  | .regularExpressionLiteral _ _ => .regularExpressionLiteral
  | .noSubstitutionTemplateLiteral _ _ => .noSubstitutionTemplateLiteral
  | .templateHead _ _ _ => .templateHead
  | .templateMiddle _ _ _ => .templateMiddle
  | .templateTail _ _ _ => .templateTail
  | .sourceFile _ => .sourceFile
  | .plain node => node.kind

-- the children as the visitor reports them, an absent one left out
mutual
inductive Node where
  | mk (id : NodeId) (payload : Payload) (pos end_ : Int) (flags : Nat) (children : List Child)

inductive Child where
  | node (child : Node)
  | list (pos end_ : Int) (nodes : List Node)
  | modifiers (pos end_ : Int) (nodes : List Node)
end

def Node.payload : Node → Payload
  | .mk _ payload _ _ _ _ => payload

def Node.pos : Node → Int
  | .mk _ _ pos _ _ _ => pos

def Node.end_ : Node → Int
  | .mk _ _ _ end_ _ _ => end_

def Node.children : Node → List Child
  | .mk _ _ _ _ _ children => children

/-- A source file as its callers hold it, with the range of its node: the parser gives it the whole text, a factory
leaves it undefined. -/
structure SourceFile where
  data : SourceFileData
  pos : Int
  end_ : Int
  range : (pos = 0 ∧ end_ = (bytes data.text).length) ∨ (pos = -1 ∧ end_ = -1)

/-- `AstStore::text`, of nodes with a text of their own. A regular expression has none there. -/
def Payload.text : Payload → String
  | .identifier text | .privateIdentifier text | .jsxText text _ | .stringLiteral text _ | .numericLiteral text _
  | .bigIntLiteral text _ | .noSubstitutionTemplateLiteral text _ | .templateHead text _ _ | .templateMiddle text _ _
  | .templateTail text _ _ => text
  | .regularExpressionLiteral _ _ | .sourceFile _ | .plain _ => ""

def noStructuredData : Nat := 0xffffffff

def msgpackWriteArrayHeader (length : Nat) : List UInt8 :=
  if length ≤ 0x0f then [UInt8.ofNat (0x90 + length)]
  else if length ≤ 0xffff then 0xdc :: beBytes 2 length
  else 0xdd :: beBytes 4 length

def msgpackWriteUint (value : Nat) : List UInt8 :=
  if value ≤ 0x7f then [UInt8.ofNat value]
  else if value ≤ 0xff then 0xcc :: beBytes 1 value
  else if value ≤ 0xffff then 0xcd :: beBytes 2 value
  else 0xce :: beBytes 4 value

def msgpackWriteString (s : String) : List UInt8 :=
  let n := (bytes s).length
  let header := if n ≤ 0x1f then [UInt8.ofNat (0xa0 + n)]
    else if n ≤ 0xff then 0xd9 :: beBytes 1 n
    else if n ≤ 0xffff then 0xda :: beBytes 2 n
    else 0xdb :: beBytes 4 n
  header ++ bytes s

def msgpackWriteBool (value : Bool) : List UInt8 := [if value then 0xc3 else 0xc2]

def u32 (x : Int) : Nat := (x % 2 ^ 32).toNat

/-- Add an array to the structured data, unless it is empty: its offset, and the data. -/
def encodeArray {α : Type} (write : α → List UInt8) (items : List α) (buf : List UInt8) : Nat × List UInt8 :=
  if items.isEmpty then (noStructuredData, buf)
  else (u32 buf.length, buf ++ msgpackWriteArrayHeader items.length ++ items.flatMap write)

def encodeFileReferences (positionMap : Int → Int) : List FileReference → List UInt8 → Nat × List UInt8 :=
  encodeArray fun ref => msgpackWriteArrayHeader 5 ++ msgpackWriteUint (u32 (positionMap ref.pos)) ++
    msgpackWriteUint (u32 (positionMap ref.end_)) ++ msgpackWriteString ref.fileName ++
    msgpackWriteUint (u32 ref.resolutionMode) ++ msgpackWriteBool ref.preserve

def encodeNodeIndexArray (indexMap : HashMap NodeId Nat) : List NodeId → List UInt8 → Nat × List UInt8 :=
  encodeArray fun node => msgpackWriteUint ((indexMap.lookup node).getD 0)

def encodeModuleAugmentations (indexMap : HashMap NodeId Nat) : List NodeId → List UInt8 → Nat × List UInt8 :=
  encodeArray fun node => msgpackWriteUint ((indexMap.lookup node).getD 0)

def encodeStringArray : List String → List UInt8 → Nat × List UInt8 := encodeArray msgpackWriteString

structure EncoderStringTable where
  fileText : List UInt8
  otherStrings : List UInt8 := []
  offsets : List Nat := []

namespace EncoderStringTable

def addOther (t : EncoderStringTable) (text : List UInt8) : Nat × EncoderStringTable :=
  let offset := t.fileText.length + t.otherStrings.length
  (u32 t.offsets.length, { t with
    otherStrings := t.otherStrings ++ text
    offsets := t.offsets ++ [u32 offset, u32 (offset + text.length)] })

def add (t : EncoderStringTable) (text : String) (kind : Kind) (pos end_ : Int) : Option (Nat × EncoderStringTable) :=
  if kind = .sourceFile then
    some (u32 t.offsets.length, { t with offsets := t.offsets ++ [u32 pos, u32 end_] })
  else if 0 < i32 (end_ - pos) ∧ 0 ≤ end_ ∧ end_ ≤ t.fileText.length then
    let endOffset := if kind = .stringLiteral ∨ kind = .templateTail ∨ kind = .noSubstitutionTemplateLiteral then 1 else 0
    let stop := end_ - endOffset
    let start := stop - (bytes text).length
    if start < 0 then none
    else if (t.fileText.drop start.toNat).take (bytes text).length = bytes text then
      some (u32 t.offsets.length, { t with offsets := t.offsets ++ [u32 start, u32 stop] })
    else some (t.addOther (bytes text))
  else some (t.addOther (bytes text))

def encode (t : EncoderStringTable) : List UInt8 := words t.offsets ++ t.fileText ++ t.otherStrings

def stringLength (t : EncoderStringTable) : Nat := t.fileText.length + t.otherStrings.length

end EncoderStringTable

def nodeSize : Nat := 28
def nodeOffsetNext : Nat := 12
def headerSize : Nat := 44
def protocolVersion : Nat := 5
def syntaxKindNodeList : Nat := 0xffffffff

structure TreeEncoder where
  parentIndex : Nat := 0
  nodeCount : Nat := 0
  prevIndex : Nat := 0
  extendedData : List UInt8 := []
  structuredData : List UInt8 := []
  strs : EncoderStringTable
  positionMap : Int → Int
  nodes : List UInt8 := []
  nodeIndexMap : HashMap NodeId Nat
  sfExtendedDataOffset : Nat := 0
  sourceFile : Option SourceFile

namespace TreeEncoder

def indexed (root : NodeId) (data : SourceFileData) : HashMap NodeId Nat :=
  let nodes := data.imports ++ data.moduleAugmentations ++ (data.externalModuleIndicator.toList.filter (· ≠ root))
  nodes.foldl (fun map node => map.insert node 0) ∅

def new (root : Node) (sourceFile : Option SourceFile) (positionMap : Int → Int) : Option TreeEncoder :=
  match root with
  | .mk id (.sourceFile data) _ _ _ _ =>
    sourceFile.map fun file =>
      { strs := { fileText := bytes file.data.text }, positionMap, nodeIndexMap := indexed id data, sourceFile }
  | _ => some { strs := { fileText := [] }, positionMap, nodeIndexMap := ∅, sourceFile }

def utf16 (e : TreeEncoder) (pos : Int) : Nat := u32 (e.positionMap pos)

def addString (e : TreeEncoder) (text : String) (kind : Kind) (pos end_ : Int) : Option (Nat × TreeEncoder) :=
  (e.strs.add text kind pos end_).map fun added => (added.1, { e with strs := added.2 })

def appendExtended (e : TreeEncoder) (values : List Nat) : TreeEncoder :=
  { e with extendedData := e.extendedData ++ words values }

def recordExtendedDataSourceFile (e : TreeEncoder) : Option TreeEncoder := do
  let file ← e.sourceFile
  let (textIndex, e) ← e.addString file.data.text .sourceFile file.pos file.end_
  let (fileNameIndex, e) ← e.addString file.data.fileName .unknown 0 0
  let (pathIndex, e) ← e.addString file.data.path .unknown 0 0
  let (referencedFiles, data) := encodeFileReferences e.positionMap file.data.referencedFiles e.structuredData
  let (typeRefDirectives, data) := encodeFileReferences e.positionMap file.data.typeReferenceDirectives data
  let (libRefDirectives, data) := encodeFileReferences e.positionMap file.data.libReferenceDirectives data
  return { e with structuredData := data }.appendExtended
    [textIndex, fileNameIndex, pathIndex, file.data.languageVariant, file.data.scriptKind, referencedFiles,
      typeRefDirectives, libRefDirectives, noStructuredData, noStructuredData, noStructuredData, 0]

def recordLiteral (e : TreeEncoder) (payload : Payload) (pos end_ : Int) (flags : UInt32) : Option TreeEncoder := do
  let (textIndex, e) ← e.addString payload.text payload.kind pos end_
  return e.appendExtended [textIndex, flags.toNat]

def recordTemplateLiteralLike (e : TreeEncoder) (payload : Payload) (pos end_ : Int) (rawText : String)
    (templateFlags : UInt32) : Option TreeEncoder := do
  let (textIndex, e) ← e.addString payload.text payload.kind pos end_
  let (rawTextIndex, e) ← e.addString rawText payload.kind pos end_
  return e.appendExtended [textIndex, rawTextIndex, templateFlags.toNat]

/-- `get_node_data`, with the recording of strings and of extended data. -/
def getNodeData (e : TreeEncoder) (payload : Payload) (pos end_ : Int) : Option (Nat × TreeEncoder) :=
  let extended (recorded : Option TreeEncoder) : Option (Nat × TreeEncoder) :=
    recorded.map fun after => (nodeDataTypeExtendedData ||| u32 e.extendedData.length, after)
  let string (common : Nat) : Option (Nat × TreeEncoder) :=
    (e.addString payload.text payload.kind pos end_).map fun added => (nodeDataTypeString ||| common ||| added.1, added.2)
  match payload with
  | .identifier _ | .privateIdentifier _ => string 0
  | .jsxText _ containsOnlyTriviaWhiteSpaces => string ((if containsOnlyTriviaWhiteSpaces then 1 else 0) <<< 24)
  | .stringLiteral _ flags | .numericLiteral _ flags | .bigIntLiteral _ flags | .regularExpressionLiteral _ flags
  | .noSubstitutionTemplateLiteral _ flags => extended (e.recordLiteral payload pos end_ flags)
  | .templateHead _ rawText flags | .templateMiddle _ rawText flags | .templateTail _ rawText flags =>
    extended (e.recordTemplateLiteralLike payload pos end_ rawText flags)
  | .sourceFile _ => extended e.recordExtendedDataSourceFile
  | .plain node =>
    -- `get_node_common_data` refuses this kind
    if node.kind = .syntheticExpression then none
    else some (nodeDataTypeChildren ||| node.common.val <<< 24 ||| node.children.val, e)

def patchPrevNext (e : TreeEncoder) : Option TreeEncoder :=
  if e.prevIndex ≠ 0 then
    (writeLe32 e.nodes (e.prevIndex * nodeSize + nodeOffsetNext) e.nodeCount).map fun nodes => { e with nodes }
  else some e

/-- The count of the node to come, and the link of the sibling before it. -/
def nextNode (e : TreeEncoder) : Option TreeEncoder :=
  { e with nodeCount := u32 (e.nodeCount + 1) }.patchPrevNext

def appendNode (e : TreeEncoder) (values : List Nat) : TreeEncoder := { e with nodes := e.nodes ++ words values }

def indexNode (e : TreeEncoder) (id : NodeId) : TreeEncoder :=
  if id ∈ e.nodeIndexMap then { e with nodeIndexMap := e.nodeIndexMap.insert id e.nodeCount } else e

/-- Visit what is below the last record, and come back from it. -/
def inside (e : TreeEncoder) (visit : TreeEncoder → Option TreeEncoder) : Option TreeEncoder := do
  let after ← visit { e with prevIndex := 0, parentIndex := e.nodeCount }
  return { after with prevIndex := e.nodeCount, parentIndex := e.parentIndex }

def visitNodeList (e : TreeEncoder) (pos end_ : Int) (length : Nat) (visit : TreeEncoder → Option TreeEncoder) :
    Option TreeEncoder := do
  let e ← e.nextNode
  (e.appendNode [syntaxKindNodeList, e.utf16 pos, e.utf16 end_, 0, e.parentIndex, u32 length, 0]).inside visit

/-- The record of a node, and its entry in the index of nodes. -/
def enterNode (e : TreeEncoder) (id : NodeId) (payload : Payload) (pos end_ : Int) (flags : Nat) : Option TreeEncoder := do
  let e ← e.nextNode
  let (nodeData, e) ← e.getNodeData payload pos end_
  return (e.appendNode [payload.kind.ctorIdx, e.utf16 pos, e.utf16 end_, 0, e.parentIndex, nodeData, flags]).indexNode id

mutual
def visitNode : Node → TreeEncoder → Option TreeEncoder
  | .mk id payload pos end_ flags children, e => do
    let e ← e.enterNode id payload pos end_ flags
    e.inside (visitChildren children)

def visitNodes : List Node → TreeEncoder → Option TreeEncoder
  | [], e => some e
  | node :: nodes, e => (visitNode node e).bind (visitNodes nodes)

def visitChild : Child → TreeEncoder → Option TreeEncoder
  | .node child, e => visitNode child e
  | .list pos end_ nodes, e => e.visitNodeList pos end_ nodes.length (visitNodes nodes)
  | .modifiers pos end_ nodes, e =>
    if nodes.isEmpty then some e else e.visitNodeList pos end_ nodes.length (visitNodes nodes)

/-- `visit_each_child`, over the children from one on. -/
def visitChildren : List Child → TreeEncoder → Option TreeEncoder
  | [], e => some e
  | child :: children, e => (visitChild child e).bind (visitChildren children)
end

def start (e : TreeEncoder) : TreeEncoder :=
  { e.appendNode [0, 0, 0, 0, 0, 0, 0] with
    nodeCount := e.nodeCount + 1
    parentIndex := e.parentIndex + 1
    sfExtendedDataOffset := e.extendedData.length }

def encodeRoot (e : TreeEncoder) : Node → Option TreeEncoder
  | .mk _ payload pos end_ flags children => do
    let (nodeData, e) ← e.start.getNodeData payload pos end_
    visitChildren children
      (e.appendNode [payload.kind.ctorIdx, e.utf16 pos, e.utf16 end_, 0, 0, nodeData, flags])

def finishSourceFile (e : TreeEncoder) (root : NodeId) (data : SourceFileData) : Option TreeEncoder := do
  let (imports, structured) := encodeNodeIndexArray e.nodeIndexMap data.imports e.structuredData
  let (moduleAugmentations, structured) := encodeModuleAugmentations e.nodeIndexMap data.moduleAugmentations structured
  let (ambientModuleNames, structured) := encodeStringArray data.ambientModuleNames structured
  let indicator := match data.externalModuleIndicator with
    | none => 0
    | some node => if node = root then 1 else (e.nodeIndexMap.lookup node).getD 0
  let extended ← writeLe32 e.extendedData (e.sfExtendedDataOffset + 32) imports
  let extended ← writeLe32 extended (e.sfExtendedDataOffset + 36) moduleAugmentations
  let extended ← writeLe32 extended (e.sfExtendedDataOffset + 40) ambientModuleNames
  let extended ← writeLe32 extended (e.sfExtendedDataOffset + 44) indicator
  return { e with structuredData := structured, extendedData := extended }

def encodeParseOptions (data : SourceFileData) : Nat := (if data.jsx then 1 else 0) + (if data.force then 2 else 0)

/-- The words of the header, for the sections of a finished encoder. -/
def header (e : TreeEncoder) (hash parseOpts : Nat) : List Nat :=
  let stringData := headerSize + e.strs.offsets.length * 4
  let extendedData := stringData + e.strs.stringLength
  let structuredData := extendedData + e.extendedData.length
  let nodes := structuredData + e.structuredData.length
  [protocolVersion <<< 24, hash, hash / 2 ^ 32, hash / 2 ^ 64, hash / 2 ^ 96, parseOpts, headerSize, stringData,
    extendedData, structuredData, nodes]

def layout (e : TreeEncoder) (hash parseOpts : Nat) : List UInt8 :=
  words (e.header hash parseOpts) ++ e.strs.encode ++ e.extendedData ++ e.structuredData ++ e.nodes

def finish (e : TreeEncoder) : Node → Option TreeEncoder
  | .mk id (.sourceFile data) _ _ _ _ => e.finishSourceFile id data
  | _ => some e

def metadata (sourceFile : Option SourceFile) : Node → Option (Nat × Nat)
  | .mk _ (.sourceFile _) _ _ _ _ => sourceFile.map fun file => (file.data.hash, encodeParseOptions file.data)
  | _ => some (0, 0)

end TreeEncoder

/-- The encoder when all is recorded, for the positions of the source file in UTF-16 code units. -/
def encoded (root : Node) (sourceFile : Option SourceFile) (positionMap : Int → Int) : Option TreeEncoder := do
  let e ← TreeEncoder.new root sourceFile positionMap
  let e ← e.encodeRoot root
  e.finish root

def encodeTree (root : Node) (sourceFile : Option SourceFile) (positionMap : Int → Int) : Option (List UInt8) := do
  let e ← encoded root sourceFile positionMap
  let (hash, parseOpts) ← TreeEncoder.metadata sourceFile root
  return e.layout hash parseOpts

end TypeScriptRs.Api
