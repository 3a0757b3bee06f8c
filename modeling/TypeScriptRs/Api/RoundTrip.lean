import TypeScriptRs.Api.Decoder

/-! Decoding an encoded tree gives its root back, but no children. -/
namespace TypeScriptRs.Api
open LittleEndian Preorder Frames List Option
open Syntax (Kind)

namespace TreeEncoder

variable {text : String} {kind : Kind} {pos end_ : Int} {found : Nat × TreeEncoder} {payload : Payload} {flags : UInt32}
  {visit : TreeEncoder → Option TreeEncoder} {ts : List (Rose Nat)}

/-- Strings, extended data and so many records are added behind those there are. -/
structure Grows (e e' : TreeEncoder) (added : Nat) : Prop where
  fileText : e'.strs.fileText = e.strs.fileText
  otherStrings : e.strs.otherStrings <+: e'.strs.otherStrings
  offsets : e.strs.offsets <+: e'.strs.offsets
  extendedData : e.extendedData <+: e'.extendedData
  sfExtendedDataOffset : e'.sfExtendedDataOffset = e.sfExtendedDataOffset
  nodes : e'.nodes.length = e.nodes.length + nodeSize * added

variable {e e' e₁ : TreeEncoder} {added more : Nat}

theorem Grows.refl (e : TreeEncoder) : Grows e e 0 :=
  ⟨rfl, prefix_rfl, prefix_rfl, prefix_rfl, rfl, rfl⟩

theorem Grows.trans (first : Grows e e₁ added) (second : Grows e₁ e' more) : Grows e e' (added + more) where
  fileText := second.fileText.trans first.fileText
  otherStrings := first.otherStrings.trans second.otherStrings
  offsets := first.offsets.trans second.offsets
  extendedData := first.extendedData.trans second.extendedData
  sfExtendedDataOffset := second.sfExtendedDataOffset.trans first.sfExtendedDataOffset
  nodes := by rw [second.nodes, first.nodes, Nat.mul_add, Nat.add_assoc]

theorem addString_grows {added : Nat × TreeEncoder} (ok : e.addString text kind pos end_ = some added) : Grows e added.2 0 := by
  obtain ⟨⟨index, strs⟩, inner, rfl⟩ := map_eq_some_iff.mp ok
  have other : Grows e { e with strs := (e.strs.addOther (bytes text)).2 } 0 :=
    ⟨rfl, prefix_append _ _, prefix_append _ _, prefix_rfl, rfl, rfl⟩
  unfold EncoderStringTable.add at inner
  split at inner
  · cases inner
    exact ⟨rfl, prefix_rfl, prefix_append _ _, prefix_rfl, rfl, rfl⟩
  split at inner
  · dsimp only at inner
    generalize (if kind = .stringLiteral ∨ kind = .templateTail ∨ kind = .noSubstitutionTemplateLiteral then (1 : Int)
      else 0) = endOffset at inner
    split at inner
    · cases inner
    split at inner
    · cases inner
      exact ⟨rfl, prefix_rfl, prefix_append _ _, prefix_rfl, rfl, rfl⟩
    · cases inner
      exact other
  · cases inner
    exact other

theorem appended_grows (e : TreeEncoder) (structured : List UInt8) (values : List Nat) :
    Grows e ({ e with structuredData := structured }.appendExtended values) 0 :=
  ⟨rfl, prefix_rfl, prefix_rfl, prefix_append _ _, rfl, rfl⟩

theorem appended_words (e : TreeEncoder) (structured : List UInt8) (values : List Nat) :
    ({ e with structuredData := structured }.appendExtended values).extendedData = e.extendedData ++ LittleEndian.words values := rfl

theorem Grows.appendExtended (grows : Grows e e' added) (values : List Nat) : Grows e (e'.appendExtended values) added :=
  grows.trans (appended_grows e' e'.structuredData values)

theorem recordLiteral_grows (ok : e.recordLiteral payload pos end_ flags = some e') : Grows e e' 0 := by
  obtain ⟨added, first, last⟩ := bind_eq_some_iff.mp ok
  cases last
  exact (addString_grows first).appendExtended _

theorem recordTemplateLiteralLike_grows {rawText : String}
    (ok : e.recordTemplateLiteralLike payload pos end_ rawText flags = some e') : Grows e e' 0 := by
  obtain ⟨added, first, rest⟩ := bind_eq_some_iff.mp ok
  obtain ⟨raw, second, last⟩ := bind_eq_some_iff.mp rest
  cases last
  exact ((addString_grows first).trans (addString_grows second)).appendExtended _

theorem recordExtendedDataSourceFile_grows (ok : e.recordExtendedDataSourceFile = some e') : Grows e e' 0 := by
  obtain ⟨file, -, rest⟩ := bind_eq_some_iff.mp ok
  obtain ⟨text, first, rest⟩ := bind_eq_some_iff.mp rest
  obtain ⟨name, second, rest⟩ := bind_eq_some_iff.mp rest
  obtain ⟨path, third, last⟩ := bind_eq_some_iff.mp rest
  cases last
  have grows := ((addString_grows first).trans (addString_grows second)).trans (addString_grows third)
  exact grows.trans (appended_grows path.2 _ _)

theorem getNodeData_grows (ok : e.getNodeData payload pos end_ = some found) : Grows e found.2 0 := by
  unfold getNodeData at ok
  cases payload with
  | identifier | privateIdentifier | jsxText =>
    obtain ⟨added, first, rfl⟩ := map_eq_some_iff.mp ok
    exact (addString_grows first :)
  | stringLiteral | numericLiteral | bigIntLiteral | regularExpressionLiteral | noSubstitutionTemplateLiteral =>
    obtain ⟨added, first, rfl⟩ := map_eq_some_iff.mp ok
    exact (recordLiteral_grows first :)
  | templateHead | templateMiddle | templateTail =>
    obtain ⟨added, first, rfl⟩ := map_eq_some_iff.mp ok
    exact (recordTemplateLiteralLike_grows first :)
  | sourceFile =>
    obtain ⟨added, first, rfl⟩ := map_eq_some_iff.mp ok
    exact (recordExtendedDataSourceFile_grows first :)
  | plain node =>
    dsimp only at ok
    split at ok
    · cases ok
    · cases ok
      exact Grows.refl e

theorem nextNode_grows (ok : e.nextNode = some e') : Grows e e' 0 := by
  unfold nextNode patchPrevNext at ok
  split at ok
  · obtain ⟨nodes, written, rfl⟩ := map_eq_some_iff.mp ok
    exact ⟨rfl, prefix_rfl, prefix_rfl, prefix_rfl, rfl, length_writeLe32 written⟩
  · cases ok
    exact ⟨rfl, prefix_rfl, prefix_rfl, prefix_rfl, rfl, rfl⟩

theorem appendNode_grows (e : TreeEncoder) (r : Record) : Grows e (e.appendNode r.words) 1 where
  fileText := rfl
  otherStrings := prefix_rfl
  offsets := prefix_rfl
  extendedData := prefix_rfl
  sfExtendedDataOffset := rfl
  nodes := by
    rw [appendNode, length_append, length_words]
    rfl

theorem indexNode_grows (e : TreeEncoder) (id : NodeId) : Grows e (e.indexNode id) 0 := by
  unfold indexNode
  split
  · exact ⟨rfl, prefix_rfl, prefix_rfl, prefix_rfl, rfl, rfl⟩
  · exact Grows.refl e

def Adds (visit : TreeEncoder → Option TreeEncoder) (added : Nat) : Prop := ∀ ⦃e e'⦄, visit e = some e' → Grows e e' added

theorem inside_grows (below : Adds visit added) (ok : e.inside visit = some e') : Grows e e' added := by
  obtain ⟨after, ran, last⟩ := bind_eq_some_iff.mp ok
  cases last
  have grows := below ran
  exact ⟨grows.fileText, grows.otherStrings, grows.offsets, grows.extendedData, grows.sfExtendedDataOffset, grows.nodes⟩

theorem enterNode_grows {id : NodeId} {flags : Nat} (ok : e.enterNode id payload pos end_ flags = some e') : Grows e e' 1 := by
  obtain ⟨e₁, next, rest⟩ := bind_eq_some_iff.mp ok
  obtain ⟨⟨nodeData, e₂⟩, recorded, last⟩ := bind_eq_some_iff.mp rest
  cases last
  have entered := appendNode_grows e₂ ⟨payload.kind.ctorIdx, e₂.utf16 pos, e₂.utf16 end_, 0, e₂.parentIndex, nodeData, flags⟩
  exact (((nextNode_grows next).trans (getNodeData_grows recorded)).trans entered).trans (indexNode_grows _ _)

theorem Adds.list (below : Adds visit (sizes ts)) (pos end_ : Int) (length label : Nat) :
    Adds (fun e => e.visitNodeList pos end_ length visit) (sizes [.node label ts]) := by
  intro e e' ok
  obtain ⟨e₁, next, ran⟩ := bind_eq_some_iff.mp ok
  have entered := appendNode_grows e₁ ⟨syntaxKindNodeList, e₁.utf16 pos, e₁.utf16 end_, 0, e₁.parentIndex, u32 length, 0⟩
  have grows := ((nextNode_grows next).trans entered).trans (inside_grows below ran)
  rw [sizes, Rose.size, sizes]
  rwa [Nat.zero_add] at grows

theorem Adds.append {first rest : TreeEncoder → Option TreeEncoder} {us : List (Rose Nat)}
    (front : Adds first (sizes ts)) (back : Adds rest (sizes us)) : Adds (fun e => (first e).bind rest) (sizes (ts ++ us)) := by
  intro e e' ok
  obtain ⟨e₁, ran, last⟩ := bind_eq_some_iff.mp ok
  rw [sizes_append]
  exact (front ran).trans (back last)

theorem Adds.nil : Adds some (sizes ([] : List (Rose Nat))) := by
  intro e e' ok
  cases ok
  exact Grows.refl e

mutual
theorem visitNode_adds (n : Node) : Adds (visitNode n) (sizes [n.tree]) := by
  obtain ⟨id, payload, pos, end_, flags, children⟩ := n
  have below := visitChildren_adds children
  intro e e' ok
  rw [visitNode] at ok
  obtain ⟨e₁, entered, ran⟩ := bind_eq_some_iff.mp ok
  rw [sizes, Node.tree, Rose.size, sizes]
  exact (enterNode_grows entered).trans (inside_grows below ran)

theorem visitNodes_adds (nodes : List Node) : Adds (visitNodes nodes) (sizes (nodeTrees nodes)) := by
  cases nodes with
  | nil => exact Adds.nil
  | cons node nodes => exact (visitNode_adds node).append (visitNodes_adds nodes)

theorem visitChild_adds (c : Child) : Adds (visitChild c) (sizes c.trees) := by
  cases c with
  | node child => exact visitNode_adds child
  | list pos end_ nodes => exact (visitNodes_adds nodes).list pos end_ nodes.length syntaxKindNodeList
  | modifiers pos end_ nodes =>
    have below := (visitNodes_adds nodes).list pos end_ nodes.length syntaxKindNodeList
    intro e e' ok
    rw [visitChild] at ok
    rw [Child.trees]
    split at ok
    · rename_i none_
      rw [if_pos none_]
      exact Adds.nil ok
    · rename_i some_
      rw [if_neg some_]
      exact below ok

theorem visitChildren_adds (cs : List Child) : Adds (visitChildren cs) (sizes (childTrees cs)) := by
  cases cs with
  | nil => exact Adds.nil
  | cons c cs => exact (visitChild_adds c).append (visitChildren_adds cs)
end

theorem encodeRoot_grows {root : Node} (ok : e.encodeRoot root = some e')
    (recorded : e.start.getNodeData root.payload root.pos root.end_ = some found) : Grows found.2 e' root.tree.size := by
  obtain ⟨id, payload, pos, end_, flags, children⟩ := root
  obtain ⟨⟨nodeData, e₂⟩, here, ran⟩ := bind_eq_some_iff.mp ok
  obtain rfl := some_injective _ (here.symm.trans recorded)
  have entered := appendNode_grows e₂ ⟨payload.kind.ctorIdx, e₂.utf16 pos, e₂.utf16 end_, 0, 0, nodeData, flags⟩
  rw [Node.tree, Rose.size]
  exact entered.trans (visitChildren_adds children ran)

/-- A text has its place among the strings, which an entry of the table gives. -/
structure Placed (e : TreeEncoder) (index : Nat) (text : String) : Prop where
  strings : ∃ front back, e.strs.fileText ++ e.strs.otherStrings = front ++ (bytes text ++ back) ∧
    e.strs.offsets[index]? = some (u32 front.length) ∧
    e.strs.offsets[index + 1]? = some (u32 (front.length + (bytes text).length))

theorem Placed.grows {index : Nat} (placed : Placed e index text) (grows : Grows e e' added) : Placed e' index text := by
  obtain ⟨front, back, strings, first, last⟩ := placed.strings
  obtain ⟨more, longer⟩ := grows.otherStrings
  obtain ⟨later, further⟩ := grows.offsets
  refine ⟨front, back ++ more, ?_, ?_, ?_⟩
  · rw [grows.fileText, ← longer, ← append_assoc, strings]
    simp only [append_assoc]
  · rw [← further, List.getElem?_append_left (List.getElem?_eq_some_iff.mp first).1, first]
  · rw [← further, List.getElem?_append_left (List.getElem?_eq_some_iff.mp last).1, last]

theorem addOther_placed (t : EncoderStringTable) (text : List UInt8) :
    (t.addOther text).2.fileText ++ (t.addOther text).2.otherStrings = (t.fileText ++ t.otherStrings) ++ (text ++ []) ∧
    (t.addOther text).2.offsets = t.offsets ++ [u32 (t.fileText ++ t.otherStrings).length,
      u32 ((t.fileText ++ t.otherStrings).length + text.length)] := by
  constructor
  · simp [EncoderStringTable.addOther]
  · rw [length_append]
    rfl

theorem append_of_found {data text : List UInt8} {start : Nat} (found : (data.drop start).take text.length = text)
    (rest : List UInt8) :
    data ++ rest = data.take start ++ (text ++ ((data.drop start).drop text.length ++ rest)) := by
  have cut : text ++ (data.drop start).drop text.length = data.drop start := by
    conv_lhs =>
      arg 1
      rw [← found]
    exact take_append_drop _ _
  rw [← append_assoc text, cut, ← append_assoc, take_append_drop]

theorem addString_placed {added : Nat × TreeEncoder} (other : kind ≠ .sourceFile) (ok : e.addString text kind pos end_ = some added) :
    added.1 = u32 e.strs.offsets.length ∧ Placed added.2 e.strs.offsets.length text ∧
      added.2.strs.offsets.length = e.strs.offsets.length + 2 ∧ added.2.extendedData = e.extendedData := by
  obtain ⟨⟨index, strs⟩, inner, rfl⟩ := map_eq_some_iff.mp ok
  have entry (t : EncoderStringTable) (front back : List UInt8) (strings : t.fileText ++ t.otherStrings = front ++ (bytes text ++ back))
      (offsets : t.offsets = e.strs.offsets ++ [u32 front.length, u32 (front.length + (bytes text).length)]) :
      Placed { e with strs := t } e.strs.offsets.length text ∧ t.offsets.length = e.strs.offsets.length + 2 := by
    refine ⟨⟨front, back, strings, ?_, ?_⟩, by rw [offsets, length_append]; rfl⟩
    · simp [offsets]
    · simp [offsets]
  obtain ⟨whole, offsets⟩ := addOther_placed e.strs (bytes text)
  have appended := entry _ _ _ whole offsets
  unfold EncoderStringTable.add at inner
  rw [if_neg other] at inner
  split at inner
  · rename_i inFile
    dsimp only at inner
    have unquoted : 0 ≤ if kind = .stringLiteral ∨ kind = .templateTail ∨ kind = .noSubstitutionTemplateLiteral then (1 : Int)
        else 0 := by split <;> decide
    generalize (if kind = .stringLiteral ∨ kind = .templateTail ∨ kind = .noSubstitutionTemplateLiteral then (1 : Int)
      else 0) = endOffset at inner unquoted
    split at inner
    · cases inner
    rename_i started
    obtain ⟨start, place⟩ : ∃ start : Nat, end_ - endOffset - ((bytes text).length : Int) = start :=
      ⟨_, (Int.toNat_of_nonneg (Int.not_lt.mp started)).symm⟩
    rw [place, Int.toNat_natCast] at inner
    split at inner
    · rename_i found
      cases inner
      have inside : start ≤ e.strs.fileText.length := by omega
      have length : (e.strs.fileText.take start).length = start := length_take_of_le inside
      have placed := entry { e.strs with offsets := e.strs.offsets ++ [u32 start, u32 (end_ - endOffset)] } _ _
        (append_of_found found e.strs.otherStrings)
        (by rw [length, show (start : Int) + ((bytes text).length : Int) = end_ - endOffset by omega])
      exact ⟨rfl, placed.1, placed.2, rfl⟩
    · cases inner
      exact ⟨rfl, appended.1, appended.2, rfl⟩
  · cases inner
    exact ⟨rfl, appended.1, appended.2, rfl⟩

theorem addString_sourceFile {added : Nat × TreeEncoder} (ok : e.addString text .sourceFile pos end_ = some added) :
    added.1 = u32 e.strs.offsets.length ∧ added.2.strs.offsets = e.strs.offsets ++ [u32 pos, u32 end_] ∧
      added.2.extendedData = e.extendedData := by
  obtain ⟨⟨index, strs⟩, inner, rfl⟩ := map_eq_some_iff.mp ok
  rw [EncoderStringTable.add, if_pos rfl] at inner
  cases inner
  exact ⟨rfl, rfl, rfl⟩

end TreeEncoder

theorem ctorIdx_ofNat : ∀ n < 315, (Kind.ofNat n).ctorIdx = n := by decide +kernel

theorem ofNat_ctorIdx (kind : Kind) : Kind.ofNat kind.ctorIdx = kind := by
  cases kind <;> rfl

theorem ctorIdx_count : Kind.count.ctorIdx = 314 := rfl

theorem iterate_nextKind (n : Nat) (inside : n ≤ 314) : nextKind^[n] .unknown = Kind.ofNat n := by
  induction n with
  | zero => rfl
  | succ n ih =>
    have index := ctorIdx_ofNat n (by omega)
    have more : Kind.ofNat n ≠ .count := by
      intro last
      rw [last, ctorIdx_count] at index
      omega
    rw [Function.iterate_succ_apply', ih (by omega), nextKind, if_neg more, index]

theorem kindFromU32_ctorIdx (kind : Kind) : kindFromU32 kind.ctorIdx = kind := by
  have inside := kind.ctorIdx_lt
  rw [kindFromU32, ctorIdx_count, if_neg (by omega), iterate_nextKind _ (by omega), ofNat_ctorIdx]

theorem fromUtf8_bytes (s : String) : fromUtf8 (bytes s) = some s := by
  have valid : (⟨(bytes s).toArray⟩ : ByteArray) = s.toByteArray := by simp [bytes]
  rw [fromUtf8, valid]
  simp [String.fromUTF8?, String.fromUTF8, s.isValidUTF8]

namespace AstDecoder

variable {d : AstDecoder} {index start stop : Nat}

theorem getString_ok {text : String} (first : readLe32 d.raw (d.strTable + index * 4) = start)
    (last : readLe32 d.raw (d.strTable + index * 4 + 4) = stop) (ordered : d.strData + start ≤ d.strData + stop)
    (inside : d.strData + stop ≤ d.raw.length)
    (data : fromUtf8 (slice d.raw (d.strData + start) (d.strData + stop)) = some text) : d.getString index = .ok text := by
  subst first last
  rw [getString, if_pos ⟨ordered, inside⟩, data]

theorem getString_outside (last : readLe32 d.raw (d.strTable + index * 4 + 4) = stop)
    (outside : d.raw.length < d.strData + stop) : d.getString index = .error (.stringOutOfBounds index) := by
  subst last
  rw [getString, if_neg fun inside => Nat.not_le.mpr outside inside.2]

structure HasRoot (d : AstDecoder) (kind : Kind) (data : Nat) : Prop where
  count : 2 ≤ d.nodeCount
  kind : d.nodeField 1 nodeOffsetKind = kind.ctorIdx
  data : d.nodeField 1 nodeOffsetData = data

variable {kind : Kind} {data : Nat} {text rawText : String}

def dispatch (d : AstDecoder) (kind : Kind) (data : Nat) : Except Failure Decoded :=
  if data &&& nodeDataTypeMask = nodeDataTypeString then d.createStringNode kind data
  else if data &&& nodeDataTypeMask = nodeDataTypeExtendedData then d.createExtendedNode kind data
  else createTokenNode kind

theorem HasRoot.decode_eq (root : HasRoot d kind data) :
    d.decode = match d.dispatch kind data with
      | .error (.error e) => .error (.error (.atNode 1 kind e))
      | result => result := by
  rw [decode, if_neg (Nat.not_lt.mpr root.count), createNode, root.kind, root.data, kindFromU32_ctorIdx]
  rfl

theorem dispatch_extended (d : AstDecoder) (kind : Kind) :
    d.dispatch kind nodeDataTypeExtendedData = d.createExtendedNode kind nodeDataTypeExtendedData := by
  rw [dispatch, if_neg (by decide), if_pos (by decide)]

theorem HasRoot.decode_text (root : HasRoot d kind data) (type : data &&& nodeDataTypeMask = nodeDataTypeString)
    (index : data &&& nodeDataStringIndexMask = 0) (known : kind ∈ [.identifier, .privateIdentifier, .jsxText])
    (read : d.getString 0 = .ok text) : d.decode = .ok (.text kind text) := by
  have created : d.createStringNode kind data = .ok (.text kind text) := by
    rw [createStringNode, index, read]
    simp only [orFail, bind, Except.bind]
    rw [if_pos known]
    rfl
  rw [root.decode_eq, dispatch, if_pos type, created]

theorem extended_start : nodeDataTypeExtendedData &&& nodeDataStringIndexMask = 0 := by decide

theorem HasRoot.decode_literal (root : HasRoot d kind nodeDataTypeExtendedData) {flags : UInt32}
    (known : kind ∈ [.stringLiteral, .numericLiteral, .bigIntLiteral, .regularExpressionLiteral,
      .noSubstitutionTemplateLiteral])
    (first : readLe32 d.raw d.extData = 0) (second : readLe32 d.raw (d.extData + 4) = flags.toNat)
    (read : d.getString 0 = .ok text) : d.decode = .ok (.literal kind text flags) := by
  have other : kind ≠ .sourceFile := by
    rintro rfl
    simp at known
  have created : d.createExtendedNode kind nodeDataTypeExtendedData = .ok (.literal kind text flags) := by
    rw [createExtendedNode, extended_start, Nat.add_zero, first, if_neg other, if_pos known, read, second, UInt32.ofNat_toNat]
    rfl
  rw [root.decode_eq, dispatch_extended, created]

theorem HasRoot.decode_template (root : HasRoot d kind nodeDataTypeExtendedData) {flags : UInt32}
    (known : kind ∈ [.templateHead, .templateMiddle, .templateTail])
    (first : readLe32 d.raw d.extData = 0) (second : readLe32 d.raw (d.extData + 4) = 2)
    (third : readLe32 d.raw (d.extData + 8) = flags.toNat) (read : d.getString 0 = .ok text)
    (readRaw : d.getString 2 = .ok rawText) : d.decode = .ok (.template kind text rawText flags) := by
  have other : kind ≠ .sourceFile := by
    rintro rfl
    simp at known
  have unlike : kind ∉ [.stringLiteral, .numericLiteral, .bigIntLiteral, .regularExpressionLiteral,
      .noSubstitutionTemplateLiteral] := by
    intro like
    simp only [mem_cons, not_mem_nil, or_false] at known like
    rcases known with rfl | rfl | rfl <;> simp at like
  have created : d.createExtendedNode kind nodeDataTypeExtendedData = .ok (.template kind text rawText flags) := by
    rw [createExtendedNode, extended_start, Nat.add_zero, first, if_neg other, if_neg unlike, if_pos known, read, second, readRaw,
      third, UInt32.ofNat_toNat]
    rfl
  rw [root.decode_eq, dispatch_extended, created]

theorem createExtendedNode_sourceFile (d : AstDecoder) (data : Nat) :
    d.createExtendedNode .sourceFile data = d.decodeSourceFile data := by
  rw [createExtendedNode, if_pos rfl]

section
variable (root : HasRoot d .sourceFile nodeDataTypeExtendedData) (first : readLe32 d.raw d.extData = 0)
include root first

theorem HasRoot.decode_sourceFile {fileName path : String} (second : readLe32 d.raw (d.extData + 4) = 2)
    (third : readLe32 d.raw (d.extData + 8) = 4) (read : d.getString 0 = .ok text) (readName : d.getString 2 = .ok fileName)
    (readPath : d.getString 4 = .ok path) (accepted : acceptsFileName fileName = true) :
    ∃ jsx force, d.decode = .ok (.sourceFile text fileName path jsx force) := by
  have created : d.createExtendedNode .sourceFile nodeDataTypeExtendedData = .ok (.sourceFile text fileName path
      (readLe32 d.raw headerOffsetParseOptions &&& 1 ≠ 0) (readLe32 d.raw headerOffsetParseOptions &&& 2 ≠ 0)) := by
    rw [createExtendedNode_sourceFile, decodeSourceFile, extended_start, Nat.add_zero, first, second, third, read, readName,
      readPath]
    simp only [orFail, bind, Except.bind]
    rw [if_pos accepted]
    rfl
  exact ⟨_, _, by rw [root.decode_eq, dispatch_extended, created]⟩

theorem HasRoot.decode_unreadable {e : DecodeError} (read : d.getString 0 = .error e) :
    d.decode = .error (.error (.atNode 1 .sourceFile e)) := by
  have created : d.createExtendedNode .sourceFile nodeDataTypeExtendedData = .error (.error e) := by
    rw [createExtendedNode_sourceFile, decodeSourceFile, extended_start, Nat.add_zero, first, read]
    rfl
  rw [root.decode_eq, dispatch_extended, created]
end

theorem HasRoot.decode_token (root : HasRoot d kind data) (type : data &&& nodeDataTypeMask = 0) :
    d.decode = .ok (.token kind) := by
  rw [root.decode_eq, dispatch, if_neg (by rw [type]; decide), if_neg (by rw [type]; decide), createTokenNode]

end AstDecoder

namespace TreeEncoder

variable {e : TreeEncoder} {hash parseOpts : Nat}
variable {i n index : Nat} {text : String} {values : List Nat} {e' : TreeEncoder} {root : Node}

def decoder (e : TreeEncoder) (hash parseOpts : Nat) : AstDecoder where
  raw := e.layout hash parseOpts
  strTable := headerSize
  strData := headerSize + e.strs.offsets.length * 4
  extData := headerSize + e.strs.offsets.length * 4 + e.strs.stringLength
  nodeOff := e.nodesStart
  nodeCount := e.nodes.length / nodeSize

theorem new_layout (short : (e.layout hash parseOpts).length < 2 ^ 32) :
    AstDecoder.new (e.layout hash parseOpts) = .ok (e.decoder hash parseOpts) := by
  have length : (e.layout hash parseOpts).length = e.nodesStart + e.nodes.length := e.length_layout
  have start : e.nodesStart = headerSize + e.strs.offsets.length * 4 + e.strs.stringLength + e.extendedData.length +
    e.structuredData.length := rfl
  obtain ⟨a₀, a₁, a₂, -, a₄⟩ := e.layout_offsets hash parseOpts (by omega)
  have version : (e.layout hash parseOpts).getD 3 0 = 5 := rfl
  have size : (e.layout hash parseOpts).length % 2 ^ 32 = (e.layout hash parseOpts).length := Nat.mod_eq_of_lt short
  rw [AstDecoder.new, version, a₀, a₁, a₂, a₄, size, if_neg (by omega), if_neg (by decide), if_neg (by omega),
    if_neg (by omega), decoder, length, Nat.add_sub_cancel_left]

theorem entry_layout (at_ : e.strs.offsets[i]? = some n) (fits : n < 2 ^ 32) :
    readLe32 (e.decoder hash parseOpts).raw ((e.decoder hash parseOpts).strTable + i * 4) = n := by
  have read := readLe32_words (LittleEndian.words (e.header hash parseOpts)) ((e.strs.fileText ++ e.strs.otherStrings) ++
    (e.extendedData ++ (e.structuredData ++ e.nodes))) _ at_
  rw [e.length_words_header hash parseOpts, ← e.layout_split hash parseOpts, Nat.mul_comm, Nat.mod_eq_of_lt fits] at read
  exact read

theorem getString_layout (placed : e.Placed index text)
    (short : (e.layout hash parseOpts).length < 2 ^ 32) : (e.decoder hash parseOpts).getString index = .ok text := by
  obtain ⟨front, back, strings, first, last⟩ := placed.strings
  have length : (e.layout hash parseOpts).length = e.nodesStart + e.nodes.length := e.length_layout
  have start : e.nodesStart = headerSize + e.strs.offsets.length * 4 + e.strs.stringLength + e.extendedData.length +
    e.structuredData.length := rfl
  have inside : front.length + ((bytes text).length + back.length) = e.strs.stringLength := by
    have whole := congrArg List.length strings
    simp only [length_append] at whole
    rw [EncoderStringTable.stringLength, whole]
  have split := e.layout_split hash parseOpts
  have head := e.length_words_header hash parseOpts
  have entry {i n : Nat} (at_ : e.strs.offsets[i]? = some (u32 n)) (fits : n < 2 ^ 32) :
      readLe32 (e.decoder hash parseOpts).raw ((e.decoder hash parseOpts).strTable + i * 4) = n := by
    have whole : u32 n = n := by
      rw [u32]
      omega
    rw [whole] at at_
    exact entry_layout at_ fits
  have firstRead := entry first (by omega)
  have lastRead := entry last (by omega)
  have data : slice (e.layout hash parseOpts) (headerSize + e.strs.offsets.length * 4 + front.length)
      (headerSize + e.strs.offsets.length * 4 + (front.length + (bytes text).length)) = bytes text := by
    have whole : e.layout hash parseOpts = (LittleEndian.words (e.header hash parseOpts) ++ LittleEndian.words e.strs.offsets ++
        front) ++ (bytes text ++ (back ++ (e.extendedData ++ (e.structuredData ++ e.nodes)))) := by
      rw [split, strings]
      simp only [append_assoc]
    refine slice_eq whole ?_ (by omega)
    simp only [length_append, head, length_words]
    omega
  have next : headerSize + index * 4 + 4 = headerSize + (index + 1) * 4 := by omega
  have bounds : headerSize + e.strs.offsets.length * 4 + (front.length + (bytes text).length) ≤ (e.layout hash parseOpts).length := by
    omega
  exact AstDecoder.getString_ok firstRead ((congrArg _ next).trans lastRead) (Nat.add_le_add_left (Nat.le_add_right _ _) _) bounds
    ((congrArg fromUtf8 data).trans (fromUtf8_bytes text))

theorem extended_layout (recorded : LittleEndian.words values <+: e.extendedData)
    (at_ : values[i]? = some n) (fits : n < 2 ^ 32) :
    readLe32 (e.decoder hash parseOpts).raw ((e.decoder hash parseOpts).extData + 4 * i) = n := by
  obtain ⟨back, extended⟩ := recorded
  have whole : e.layout hash parseOpts = (LittleEndian.words (e.header hash parseOpts) ++ LittleEndian.words e.strs.offsets ++
      (e.strs.fileText ++ e.strs.otherStrings)) ++ (LittleEndian.words values ++ (back ++ (e.structuredData ++ e.nodes))) := by
    rw [e.layout_split, ← extended]
    simp only [append_assoc]
  have place : (e.decoder hash parseOpts).extData = (LittleEndian.words (e.header hash parseOpts) ++
      LittleEndian.words e.strs.offsets ++ (e.strs.fileText ++ e.strs.otherStrings)).length := by
    rw [length_append, length_append, length_words_header, length_words, length_append, Nat.mul_comm]
    rfl
  have read := readLe32_words (LittleEndian.words (e.header hash parseOpts) ++
    LittleEndian.words e.strs.offsets ++ (e.strs.fileText ++ e.strs.otherStrings)) (back ++ (e.structuredData ++ e.nodes)) _ at_
  rw [← whole, ← place, Nat.mod_eq_of_lt fits] at read
  exact read

theorem finishSourceFile_keeps {id : NodeId} {data : SourceFileData} (ok : e.finishSourceFile id data = some e') :
    e'.strs = e.strs ∧ e'.extendedData.take 32 = e.extendedData.take 32 := by
  obtain ⟨extended₁, first, ok⟩ := bind_eq_some_iff.mp ok
  obtain ⟨extended₂, second, ok⟩ := bind_eq_some_iff.mp ok
  obtain ⟨extended₃, third, ok⟩ := bind_eq_some_iff.mp ok
  obtain ⟨extended₄, fourth, ok⟩ := bind_eq_some_iff.mp ok
  cases ok
  refine ⟨rfl, ?_⟩
  rw [take_writeLe32 fourth (by omega), take_writeLe32 third (by omega), take_writeLe32 second (by omega),
    take_writeLe32 first (by omega)]

theorem finish_keeps (ok : e.finish root = some e') : e'.strs = e.strs ∧ e'.extendedData.take 32 = e.extendedData.take 32 := by
  unfold finish at ok
  split at ok
  · exact finishSourceFile_keeps ok
  · cases ok
    exact ⟨rfl, rfl⟩

theorem finish_words (ok : e.finish root = some e')
    (few : values.length ≤ 8) (recorded : LittleEndian.words values <+: e.extendedData) :
    LittleEndian.words values <+: e'.extendedData := by
  have short : (LittleEndian.words values).length ≤ 32 := by
    rw [length_words]
    omega
  have front : LittleEndian.words values <+: e.extendedData.take 32 := prefix_take_iff.mpr ⟨recorded, short⟩
  rw [← (finish_keeps ok).2] at front
  exact front.trans (List.take_prefix _ _)

theorem finish_placed (ok : e.finish root = some e') (placed : e.Placed index text) : e'.Placed index text := by
  obtain ⟨front, back, rest⟩ := placed.strings
  rw [← (finish_keeps ok).1] at rest
  exact ⟨front, back, rest⟩

end TreeEncoder

variable {root : Node} {file : Option SourceFile} {positionMap : Int → Int} {e : TreeEncoder} {hash parseOpts : Nat}

/-- What is recorded for the root of a tree is in the finished encoder. -/
structure Finished (found : Nat × TreeEncoder) (root : Node) (e : TreeEncoder) : Prop where
  placed : ∀ ⦃index text⦄, found.2.Placed index text → e.Placed index text
  fileText : e.strs.fileText = found.2.strs.fileText
  offsets : found.2.strs.offsets <+: e.strs.offsets
  words : ∀ ⦃values : List Nat⦄, values.length ≤ 8 → LittleEndian.words values <+: found.2.extendedData →
    LittleEndian.words values <+: e.extendedData
  hasRoot : ∀ hash parseOpts, (e.layout hash parseOpts).length < 2 ^ 32 → found.1 < 2 ^ 32 →
    (e.decoder hash parseOpts).HasRoot root.payload.kind found.1

theorem new_empty {e₀ : TreeEncoder} (ok : TreeEncoder.new root file positionMap = some e₀) :
    e₀.strs.offsets = [] ∧ e₀.extendedData = [] ∧ e₀.sourceFile = file ∧
      ((∃ data, root.payload = .sourceFile data) → e₀.strs.fileText = file.elim [] fun f => bytes f.data.text) := by
  unfold TreeEncoder.new at ok
  split at ok
  · obtain ⟨f, rfl, rfl⟩ := map_eq_some_iff.mp ok
    exact ⟨rfl, rfl, rfl, fun _ => rfl⟩
  rename_i other
  cases ok
  refine ⟨rfl, rfl, rfl, fun ⟨data, source⟩ => ?_⟩
  obtain ⟨id, payload, pos, end_, flags, children⟩ := root
  obtain rfl : payload = .sourceFile data := source
  exact absurd rfl (other id data pos end_ flags children)

theorem encoded_finished (done : encoded root file positionMap = some e) :
    ∃ e₀ found, TreeEncoder.new root file positionMap = some e₀ ∧
      e₀.start.getNodeData root.payload root.pos root.end_ = some found ∧ Finished found root e := by
  obtain ⟨e₀, start, done'⟩ := bind_eq_some_iff.mp done
  obtain ⟨e₁, ran, finished⟩ := bind_eq_some_iff.mp done'
  obtain ⟨found, recorded⟩ : ∃ found, e₀.start.getNodeData root.payload root.pos root.end_ = some found := by
    obtain ⟨id, payload, pos, end_, flags, children⟩ := root
    obtain ⟨found, here, -⟩ := bind_eq_some_iff.mp ran
    exact ⟨found, here⟩
  have grows := TreeEncoder.encodeRoot_grows ran recorded
  have nodes := TreeEncoder.finish_nodes finished
  have first : found.2.nodes.length = nodeSize := by
    rw [(TreeEncoder.getNodeData_same recorded).nodes, TreeEncoder.start, TreeEncoder.appendNode, (TreeEncoder.new_start start).1]
    rfl
  refine ⟨e₀, found, start, recorded, fun index text placed => TreeEncoder.finish_placed finished (placed.grows grows), ?_, ?_,
    fun values few words => TreeEncoder.finish_words finished few (words.trans grows.extendedData), ?_⟩
  · rw [(TreeEncoder.finish_keeps finished).1]
    exact grows.fileText
  · rw [(TreeEncoder.finish_keeps finished).1]
    exact grows.offsets
  intro hash parseOpts short fits
  have long := grows.nodes
  rw [← nodes, first] at long
  have size := root.tree.size_pos
  rw [e.length_layout, long, nodeSize] at short
  obtain ⟨records, bytes, rows, found', recorded', data⟩ :=
    TreeEncoder.encodeRoot_records (TreeEncoder.new_start start) (by omega) ran
  obtain rfl := some_injective _ (recorded'.symm.trans recorded)
  rw [← nodes] at bytes
  obtain ⟨r, here, datum⟩ := map_eq_some_iff.mp ((List.getElem?_map).symm.trans data)
  have kind : r.kind = root.payload.kind.ctorIdx := by
    have row : (records.map Record.row)[1]? = some r.row := by rw [List.getElem?_map, here]; rfl
    rw [rows] at row
    obtain ⟨id, payload, pos, end_, flags, children⟩ := root
    exact (congrArg Row.label (some_injective _ row)).symm
  have small := root.payload.kind.ctorIdx_lt
  have start' : e.nodesStart < 2 ^ 32 := by omega
  have header := (e.layout_offsets hash parseOpts start').2.2.2.2
  refine ⟨?_, ?_, ?_⟩
  · change 2 ≤ e.nodes.length / nodeSize
    rw [long, nodeSize]
    omega
  · have read : nodeField (e.layout hash parseOpts) 1 (4 * 0) = r.kind :=
      TreeEncoder.nodeField_layout bytes start' here rfl (by omega)
    rw [nodeField, header] at read
    exact read.trans kind
  · have read : nodeField (e.layout hash parseOpts) 1 (4 * 5) = r.data :=
      TreeEncoder.nodeField_layout bytes start' here rfl (by omega)
    rw [nodeField, header] at read
    exact read.trans datum

structure Blank (e : TreeEncoder) : Prop where
  offsets : e.strs.offsets = []
  extendedData : e.extendedData = []

theorem new_blank {e₀ : TreeEncoder} (ok : TreeEncoder.new root file positionMap = some e₀) : Blank e₀.start :=
  ⟨(new_empty ok).1, (new_empty ok).2.1⟩

namespace Blank
open TreeEncoder

variable {e e' : TreeEncoder} {payload : Payload} {pos end_ : Int} {flags : UInt32}

theorem addString (blank : Blank e) {text : String} {kind : Kind} {added : Nat × TreeEncoder} (other : kind ≠ .sourceFile)
    (ok : e.addString text kind pos end_ = some added) :
    added.1 = 0 ∧ Placed added.2 0 text ∧ added.2.strs.offsets.length = 2 ∧ added.2.extendedData = [] := by
  obtain ⟨index, placed, length, same⟩ := addString_placed other ok
  rw [blank.offsets] at index placed length
  exact ⟨index, placed, length, same.trans blank.extendedData⟩

theorem recordLiteral (blank : Blank e) (other : payload.kind ≠ .sourceFile)
    (ok : e.recordLiteral payload pos end_ flags = some e') :
    Placed e' 0 payload.text ∧ LittleEndian.words [0, flags.toNat] <+: e'.extendedData := by
  obtain ⟨⟨index, e₁⟩, first, last⟩ := bind_eq_some_iff.mp ok
  cases last
  obtain ⟨rfl, placed, -, same⟩ := blank.addString other first
  refine ⟨placed.grows ((Grows.refl _).appendExtended _), ?_⟩
  rw [appendExtended, same]
  exact prefix_rfl

theorem recordTemplateLiteralLike (blank : Blank e) {rawText : String} (other : payload.kind ≠ .sourceFile)
    (ok : e.recordTemplateLiteralLike payload pos end_ rawText flags = some e') :
    Placed e' 0 payload.text ∧ Placed e' 2 rawText ∧ LittleEndian.words [0, 2, flags.toNat] <+: e'.extendedData := by
  obtain ⟨⟨index, e₁⟩, first, rest⟩ := bind_eq_some_iff.mp ok
  obtain ⟨⟨rawIndex, e₂⟩, second, last⟩ := bind_eq_some_iff.mp rest
  cases last
  obtain ⟨rfl, placed, length, same⟩ := blank.addString other first
  obtain ⟨at_, rawPlaced, -, same'⟩ := addString_placed other second
  rw [length] at at_ rawPlaced
  obtain rfl : rawIndex = 2 := at_
  have appended : Grows e₂ (e₂.appendExtended [0, 2, flags.toNat]) 0 := (Grows.refl _).appendExtended _
  refine ⟨placed.grows ((addString_grows second).trans appended), rawPlaced.grows appended, ?_⟩
  rw [appendExtended, same', same]
  exact prefix_rfl

theorem recordExtendedDataSourceFile (blank : Blank e) (ok : e.recordExtendedDataSourceFile = some e') :
    ∃ file, e.sourceFile = some file ∧ [u32 file.pos, u32 file.end_] <+: e'.strs.offsets ∧ Placed e' 2 file.data.fileName ∧
      Placed e' 4 file.data.path ∧ LittleEndian.words [0, 2, 4] <+: e'.extendedData := by
  obtain ⟨file, given, rest⟩ := bind_eq_some_iff.mp ok
  obtain ⟨⟨textIndex, e₁⟩, first, rest⟩ := bind_eq_some_iff.mp rest
  obtain ⟨⟨nameIndex, e₂⟩, second, rest⟩ := bind_eq_some_iff.mp rest
  obtain ⟨⟨pathIndex, e₃⟩, third, last⟩ := bind_eq_some_iff.mp rest
  cases last
  obtain ⟨rfl, offsets, same⟩ : textIndex = 0 ∧ e₁.strs.offsets = [u32 file.pos, u32 file.end_] ∧ e₁.extendedData = [] := by
    obtain ⟨index, strs, same⟩ := addString_sourceFile first
    rw [blank.offsets] at index strs
    exact ⟨index, strs, same.trans blank.extendedData⟩
  obtain ⟨at_, named, length, same'⟩ := addString_placed (by decide) second
  obtain ⟨atPath, pathed, -, same''⟩ := addString_placed (by decide) third
  rw [offsets] at at_ named length
  rw [length] at atPath pathed
  obtain rfl : nameIndex = 2 := at_
  obtain rfl : pathIndex = 4 := atPath
  have last := addString_grows third
  refine ⟨file, given, ?_, named.grows (last.trans (appended_grows e₃ _ _)), pathed.grows (appended_grows e₃ _ _), ?_⟩
  · rw [← offsets]
    exact (addString_grows second).offsets.trans last.offsets
  · rw [appended_words, same'', same', same, nil_append]
    exact ⟨_, (words_append [0, 2, 4] _).symm⟩

end Blank

namespace Finished
open TreeEncoder

variable {found : Nat × TreeEncoder} {rawText text : String} {flags : UInt32}

variable (finished : Finished found root e) (short : (e.layout hash parseOpts).length < 2 ^ 32)
include finished short

theorem decode_text (data : found.1 = nodeDataTypeString ∨ found.1 = nodeDataTypeString ||| 1 <<< 24)
    (known : root.payload.kind ∈ [.identifier, .privateIdentifier, .jsxText]) (placed : Placed found.2 0 text) :
    (e.decoder hash parseOpts).decode = .ok (.text root.payload.kind text) := by
  have read := getString_layout (finished.placed placed) short
  rcases data with data | data
  · have fits : found.1 < 2 ^ 32 := by rw [data]; decide
    exact (finished.hasRoot hash parseOpts short fits).decode_text (by rw [data]; decide) (by rw [data]; decide) known read
  · have fits : found.1 < 2 ^ 32 := by rw [data]; decide
    exact (finished.hasRoot hash parseOpts short fits).decode_text (by rw [data]; decide) (by rw [data]; decide) known read

theorem hasRoot_extended (data : found.1 = nodeDataTypeExtendedData) : (e.decoder hash parseOpts).HasRoot root.payload.kind nodeDataTypeExtendedData := by
  rw [← data]
  exact finished.hasRoot hash parseOpts short (by rw [data]; decide)

theorem decode_literal (data : found.1 = nodeDataTypeExtendedData) (known : root.payload.kind ∈ [.stringLiteral, .numericLiteral, .bigIntLiteral,
      .regularExpressionLiteral, .noSubstitutionTemplateLiteral]) (placed : Placed found.2 0 text)
    (words : LittleEndian.words [0, flags.toNat] <+: found.2.extendedData) :
    (e.decoder hash parseOpts).decode = .ok (.literal root.payload.kind text flags) := by
  have recorded := finished.words (by simp) words
  exact (finished.hasRoot_extended short data).decode_literal known (extended_layout (i := 0) recorded rfl (by decide))
    (extended_layout (i := 1) recorded rfl flags.toNat_lt) (getString_layout (finished.placed placed) short)

theorem decode_template (data : found.1 = nodeDataTypeExtendedData) (known : root.payload.kind ∈ [.templateHead, .templateMiddle, .templateTail])
    (placed : Placed found.2 0 text) (rawPlaced : Placed found.2 2 rawText)
    (words : LittleEndian.words [0, 2, flags.toNat] <+: found.2.extendedData) :
    (e.decoder hash parseOpts).decode = .ok (.template root.payload.kind text rawText flags) := by
  have recorded := finished.words (by simp) words
  exact (finished.hasRoot_extended short data).decode_template known (extended_layout (i := 0) recorded rfl (by decide))
    (extended_layout (i := 1) recorded rfl (by decide)) (extended_layout (i := 2) recorded rfl flags.toNat_lt)
    (getString_layout (finished.placed placed) short) (getString_layout (finished.placed rawPlaced) short)

theorem decode_token (small : found.1 < 2 ^ 30) : (e.decoder hash parseOpts).decode = .ok (.token root.payload.kind) := by
  refine (finished.hasRoot hash parseOpts short (by omega)).decode_token ?_
  have mask : nodeDataTypeMask = 3 <<< 30 := by decide
  apply Nat.eq_of_testBit_eq
  intro i
  rw [mask, Nat.testBit_and, Nat.testBit_shiftLeft, Nat.zero_testBit]
  by_cases high : 30 ≤ i
  · rw [Nat.testBit_lt_two_pow (Nat.lt_of_lt_of_le small (Nat.pow_le_pow_right (by decide) high)), Bool.false_and]
  · simp [high]

/-- A source file is read back where its range is that of its text, and its text is out of bounds otherwise. -/
theorem decode_sourceFile (data : found.1 = nodeDataTypeExtendedData) (kind : root.payload.kind = .sourceFile) {f : SourceFile}
    (fileText : found.2.strs.fileText = bytes f.data.text) (range : [u32 f.pos, u32 f.end_] <+: found.2.strs.offsets)
    (named : Placed found.2 2 f.data.fileName) (pathed : Placed found.2 4 f.data.path)
    (words : LittleEndian.words [0, 2, 4] <+: found.2.extendedData) :
    (f.pos = 0 ∧ ∃ jsx force, (e.decoder hash parseOpts).decode = .ok (.sourceFile f.data.text f.data.fileName f.data.path jsx force)) ∨
    (f.pos = -1 ∧ ∃ error, (e.decoder hash parseOpts).decode = .error (.error error)) := by
  have recorded := finished.words (by decide) words
  have hasRoot := finished.hasRoot_extended short data
  rw [kind] at hasRoot
  have first : readLe32 (e.decoder hash parseOpts).raw (e.decoder hash parseOpts).extData = 0 :=
    extended_layout (i := 0) recorded rfl (by decide)
  have entry (i : Nat) (n : Nat) (at_ : [u32 f.pos, u32 f.end_][i]? = some n) : e.strs.offsets[i]? = some n := by
    obtain ⟨more, offsets⟩ := range.trans finished.offsets
    rw [← offsets, List.getElem?_append_left (List.getElem?_eq_some_iff.mp at_).1, at_]
  rcases f.range with ⟨begin_, stop⟩ | ⟨begin_, stop⟩
  · refine .inl ⟨begin_, ?_⟩
    have placed : Placed e 0 f.data.text := by
      refine ⟨[], e.strs.otherStrings, ?_, ?_, ?_⟩
      · rw [finished.fileText, fileText, nil_append]
      · exact entry 0 _ (by rw [begin_]; rfl)
      · exact entry 1 _ (by rw [stop, length_nil, Nat.cast_zero, zero_add]; rfl)
    exact hasRoot.decode_sourceFile first (extended_layout (i := 1) recorded rfl (by decide))
      (extended_layout (i := 2) recorded rfl (by decide)) (getString_layout placed short)
      (getString_layout (finished.placed named) short) (getString_layout (finished.placed pathed) short) f.data.accepted
  · have last : readLe32 (e.decoder hash parseOpts).raw ((e.decoder hash parseOpts).strTable + 0 * 4 + 4) = 2 ^ 32 - 1 :=
      entry_layout (i := 1) (entry 1 _ (by rw [stop]; rfl)) (by decide)
    refine .inr ⟨begin_, _, hasRoot.decode_unreadable first (AstDecoder.getString_outside last ?_)⟩
    change (e.layout hash parseOpts).length < headerSize + e.strs.offsets.length * 4 + (2 ^ 32 - 1)
    rw [headerSize]
    omega

end Finished

variable {buf : List UInt8}

def Restored (n : Node) : Except Failure Decoded → Prop
  | .ok decoded => decoded.shape = n.shape
  | .error (.error _) => True
  | .error .panic => False

/-- The trees that come back: those without children, or with an end of file alone. Of a source file the text comes
back, unless its range is undefined, and of a regular expression an empty text. -/
def Restorable (n : Node) (file : Option SourceFile) : Prop :=
  match n.payload with
  | .sourceFile data => ∃ f ∈ file, f.pos = -1 ∨ (f.data.text = data.text ∧ childShapes n.children = [endOfFileShape])
  | .regularExpressionLiteral text _ => text = "" ∧ childShapes n.children = []
  | _ => childShapes n.children = []

theorem shape_eq_iff (n : Node) (kind : Kind) (texts : List String) (tokenFlags : List UInt32) (children : List Shape) :
    Shape.mk kind texts tokenFlags children = n.shape ↔ kind = n.payload.kind ∧ texts = n.payload.texts ∧
      tokenFlags = n.payload.tokenFlags ∧ children = childShapes n.children := by
  obtain ⟨id, payload, pos, end_, flags, cs⟩ := n
  rw [Node.shape, Shape.mk.injEq]
  rfl

theorem restored_childless {n : Node} {decoded : Except Failure Decoded} {d : Decoded} (ok : decoded = .ok d)
    (shape : d.shape = .mk n.payload.kind n.payload.texts n.payload.tokenFlags []) :
    Restored n decoded ↔ childShapes n.children = [] := by
  rw [ok, Restored, shape, shape_eq_iff]
  constructor
  · exact fun same => same.2.2.2.symm
  · exact fun none_ => ⟨rfl, rfl, rfl, none_.symm⟩

theorem restored_layout {n : Node} (done : encoded n file positionMap = some e)
    (short : (e.layout hash parseOpts).length < 2 ^ 32) :
    Restored n (e.decoder hash parseOpts).decode ↔ Restorable n file := by
  obtain ⟨e₀, found, start, recorded, finished⟩ := encoded_finished done
  have blank := new_blank start
  obtain ⟨id, payload, pos, end_, flags, children⟩ := n
  unfold TreeEncoder.getNodeData at recorded
  cases payload with
  | identifier text | privateIdentifier text =>
    obtain ⟨added, first, rfl⟩ := map_eq_some_iff.mp recorded
    obtain ⟨index, placed, -⟩ := blank.addString (by simp [Node.payload, Payload.kind]) first
    have decoded := finished.decode_text short (.inl (by rw [index]; rfl)) (by simp [Node.payload, Payload.kind]) placed
    exact restored_childless decoded rfl
  | jsxText text trivia =>
    obtain ⟨added, first, rfl⟩ := map_eq_some_iff.mp recorded
    obtain ⟨index, placed, -⟩ := blank.addString (by simp [Node.payload, Payload.kind]) first
    have data : nodeDataTypeString ||| (if trivia then 1 else 0) <<< 24 ||| added.1 = nodeDataTypeString ∨
        nodeDataTypeString ||| (if trivia then 1 else 0) <<< 24 ||| added.1 = nodeDataTypeString ||| 1 <<< 24 := by
      rw [index]
      cases trivia
      · exact .inl rfl
      · exact .inr rfl
    have decoded := finished.decode_text short data (by simp [Node.payload, Payload.kind]) placed
    exact restored_childless decoded rfl
  | stringLiteral text | numericLiteral text | bigIntLiteral text | noSubstitutionTemplateLiteral text =>
    obtain ⟨after, first, rfl⟩ := map_eq_some_iff.mp recorded
    obtain ⟨placed, words⟩ := blank.recordLiteral (by simp [Node.payload, Payload.kind]) first
    have decoded := finished.decode_literal short (by rw [blank.extendedData]; rfl) (by simp [Node.payload, Payload.kind]) placed words
    exact restored_childless decoded rfl
  | regularExpressionLiteral text tokenFlags =>
    obtain ⟨after, first, rfl⟩ := map_eq_some_iff.mp recorded
    obtain ⟨placed, words⟩ := blank.recordLiteral (by simp [Node.payload, Payload.kind]) first
    have decoded := finished.decode_literal short (by rw [blank.extendedData]; rfl) (by simp [Node.payload, Payload.kind]) placed words
    -- the text that is recorded is empty
    rw [decoded, Restored, Decoded.shape, shape_eq_iff]
    constructor
    · exact fun same => ⟨(singleton_inj.mp same.2.1).symm, same.2.2.2.symm⟩
    · rintro ⟨empty, none_⟩
      exact ⟨rfl, congrArg (fun t => [t]) empty.symm, rfl, none_.symm⟩
  | templateHead text rawText | templateMiddle text rawText | templateTail text rawText =>
    obtain ⟨after, first, rfl⟩ := map_eq_some_iff.mp recorded
    obtain ⟨placed, rawPlaced, words⟩ := blank.recordTemplateLiteralLike (by simp [Node.payload, Payload.kind]) first
    have decoded := finished.decode_template short (by rw [blank.extendedData]; rfl) (by simp [Node.payload, Payload.kind])
      placed rawPlaced words
    exact restored_childless decoded rfl
  | sourceFile data =>
    obtain ⟨after, first, rfl⟩ := map_eq_some_iff.mp recorded
    obtain ⟨f, given, range, named, pathed, words⟩ := blank.recordExtendedDataSourceFile first
    obtain ⟨-, -, same, text⟩ := new_empty start
    obtain rfl : file = some f := same.symm.trans given
    have fileText : after.strs.fileText = bytes f.data.text :=
      (TreeEncoder.recordExtendedDataSourceFile_grows first).fileText.trans (text ⟨data, rfl⟩)
    have data_ : nodeDataTypeExtendedData ||| u32 e₀.start.extendedData.length = nodeDataTypeExtendedData := by
      rw [blank.extendedData]
      rfl
    rcases finished.decode_sourceFile short data_ rfl fileText range named pathed words with
      ⟨begin_, jsx, force, decoded⟩ | ⟨begin_, error, decoded⟩
    · rw [decoded, Restored, Decoded.shape, shape_eq_iff]
      constructor
      · exact fun same => ⟨f, rfl, .inr ⟨singleton_inj.mp same.2.1, same.2.2.2.symm⟩⟩
      rintro ⟨f', member, undefined | ⟨same, only⟩⟩
      · cases member
        rw [begin_] at undefined
        cases undefined
      · cases member
        exact ⟨rfl, congrArg (fun t => [t]) same, rfl, only.symm⟩
    · rw [decoded]
      exact ⟨fun _ => ⟨f, rfl, .inl begin_⟩, fun _ => trivial⟩
  | plain node =>
    dsimp only [Node.payload] at recorded
    split at recorded
    · cases recorded
    cases recorded
    have small : nodeDataTypeChildren ||| node.common.val <<< 24 ||| node.children.val < 2 ^ 30 := by
      refine Nat.or_lt_two_pow (Nat.or_lt_two_pow (by decide) ?_) (by omega)
      omega
    exact restored_childless (finished.decode_token short small) rfl

theorem decodeNodes_of_new {decoder : AstDecoder} (ok : AstDecoder.new buf = .ok decoder) : decodeNodes buf = decoder.decode := by
  rw [decodeNodes, ok]
  rfl

end TypeScriptRs.Api
