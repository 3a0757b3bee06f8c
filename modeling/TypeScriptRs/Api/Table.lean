import TypeScriptRs.Api.Encoder
import TypeScriptRs.Lib.Preorder

/-! The node records of an encoded tree are its table in preorder. -/
namespace TypeScriptRs.Api
open LittleEndian Preorder Frames List Option
open Syntax (Kind)

-- the nodes and lists of a tree that have records; a list of modifiers has one unless it is empty
mutual
def Node.tree : Node → Rose Nat
  | .mk _ payload _ _ _ children => .node payload.kind.ctorIdx (childTrees children)

def nodeTrees : List Node → List (Rose Nat)
  | [] => []
  | node :: nodes => node.tree :: nodeTrees nodes

def Child.trees : Child → List (Rose Nat)
  | .node child => [child.tree]
  | .list _ _ nodes => [.node syntaxKindNodeList (nodeTrees nodes)]
  | .modifiers _ _ nodes => if nodes.isEmpty then [] else [.node syntaxKindNodeList (nodeTrees nodes)]

def childTrees : List Child → List (Rose Nat)
  | [] => []
  | child :: children => child.trees ++ childTrees children
end

structure Record where
  kind : Nat
  pos : Nat
  end_ : Nat
  next : Nat
  parent : Nat
  data : Nat
  flags : Nat

namespace Record

def words (r : Record) : List Nat := [r.kind, r.pos, r.end_, r.next, r.parent, r.data, r.flags]

def row (r : Record) : Row Nat := ⟨r.kind, r.parent, r.next⟩

def link (r : Record) (next : Nat) : Record := { r with next := next }

end Record

def recordBytes (records : List Record) : List UInt8 := LittleEndian.words (records.flatMap Record.words)

theorem length_flatMap_words (records : List Record) : (records.flatMap Record.words).length = 7 * records.length := by
  induction records with
  | nil => rfl
  | cons r records ih =>
    rw [flatMap_cons, length_append, ih, length_cons]
    simp only [Record.words, length_cons, length_nil]
    omega

theorem writeLe32_recordBytes (front back : List Record) (r : Record) (value : Nat) :
    writeLe32 (recordBytes (front ++ r :: back)) (front.length * nodeSize + nodeOffsetNext) value =
      some (recordBytes (front ++ r.link value :: back)) := by
  have split (r : Record) : (front ++ r :: back).flatMap Record.words = (front.flatMap Record.words ++ [r.kind, r.pos, r.end_]) ++
      r.next :: ([r.parent, r.data, r.flags] ++ back.flatMap Record.words) := by
    simp [Record.words]
  have place : front.length * nodeSize + nodeOffsetNext =
      4 * (front.flatMap Record.words ++ [r.kind, r.pos, r.end_]).length := by
    rw [length_append, length_flatMap_words, nodeSize, nodeOffsetNext]
    simp only [length_cons, length_nil]
    omega
  rw [recordBytes, split, place, writeLe32_words, recordBytes, split]
  rfl

namespace TreeEncoder

variable {pos end_ : Int} {payload : Payload} {flags : UInt32} {label : Nat} {ts : List (Rose Nat)}
  {visit : TreeEncoder → Option TreeEncoder} {id : NodeId} {root : Node}

/-- The encoder has written the table that a writer has, and stands where it does. -/
structure Shows (e : TreeEncoder) (w : Writer Nat) (records : List Record) : Prop where
  bytes : e.nodes = recordBytes records
  rows : records.map Record.row = w.rows
  count : e.nodeCount + 1 = w.rows.length
  parent : e.parentIndex = w.parent
  prev : e.prevIndex = w.prev
  before : w.prev < w.rows.length

structure SameNodes (e e' : TreeEncoder) : Prop where
  nodes : e'.nodes = e.nodes
  count : e'.nodeCount = e.nodeCount
  parent : e'.parentIndex = e.parentIndex
  prev : e'.prevIndex = e.prevIndex

theorem SameNodes.refl (e : TreeEncoder) : SameNodes e e := ⟨rfl, rfl, rfl, rfl⟩

theorem SameNodes.trans {e₁ e₂ e₃ : TreeEncoder} (first : SameNodes e₁ e₂) (second : SameNodes e₂ e₃) : SameNodes e₁ e₃ :=
  ⟨second.nodes.trans first.nodes, second.count.trans first.count, second.parent.trans first.parent,
    second.prev.trans first.prev⟩

variable {e e' : TreeEncoder} {records : List Record} {w : Writer Nat}

theorem SameNodes.appendExtended (same : SameNodes e e') (values : List Nat) : SameNodes e (e'.appendExtended values) :=
  ⟨same.nodes, same.count, same.parent, same.prev⟩

theorem addString_same {text : String} {kind : Kind} {added : Nat × TreeEncoder}
    (ok : e.addString text kind pos end_ = some added) : SameNodes e added.2 := by
  obtain ⟨strs, _, rfl⟩ := map_eq_some_iff.mp ok
  exact ⟨rfl, rfl, rfl, rfl⟩

theorem recordLiteral_same (ok : e.recordLiteral payload pos end_ flags = some e') : SameNodes e e' := by
  obtain ⟨added, first, last⟩ := bind_eq_some_iff.mp ok
  cases last
  exact (addString_same first).appendExtended _

theorem recordTemplateLiteralLike_same {rawText : String}
    (ok : e.recordTemplateLiteralLike payload pos end_ rawText flags = some e') : SameNodes e e' := by
  obtain ⟨added, first, rest⟩ := bind_eq_some_iff.mp ok
  obtain ⟨raw, second, last⟩ := bind_eq_some_iff.mp rest
  cases last
  exact ((addString_same first).trans (addString_same second)).appendExtended _

theorem recordExtendedDataSourceFile_same (ok : e.recordExtendedDataSourceFile = some e') : SameNodes e e' := by
  obtain ⟨file, -, rest⟩ := bind_eq_some_iff.mp ok
  obtain ⟨text, first, rest⟩ := bind_eq_some_iff.mp rest
  obtain ⟨name, second, rest⟩ := bind_eq_some_iff.mp rest
  obtain ⟨path, third, last⟩ := bind_eq_some_iff.mp rest
  cases last
  have same := ((addString_same first).trans (addString_same second)).trans (addString_same third)
  exact ⟨same.nodes, same.count, same.parent, same.prev⟩

theorem getNodeData_same {found : Nat × TreeEncoder}
    (ok : e.getNodeData payload pos end_ = some found) : SameNodes e found.2 := by
  unfold getNodeData at ok
  cases payload with
  | identifier | privateIdentifier | jsxText =>
    obtain ⟨added, first, rfl⟩ := map_eq_some_iff.mp ok
    exact (addString_same first :)
  | stringLiteral | numericLiteral | bigIntLiteral | regularExpressionLiteral | noSubstitutionTemplateLiteral =>
    obtain ⟨added, first, rfl⟩ := map_eq_some_iff.mp ok
    exact (recordLiteral_same first :)
  | templateHead | templateMiddle | templateTail =>
    obtain ⟨added, first, rfl⟩ := map_eq_some_iff.mp ok
    exact (recordTemplateLiteralLike_same first :)
  | sourceFile =>
    obtain ⟨added, first, rfl⟩ := map_eq_some_iff.mp ok
    exact (recordExtendedDataSourceFile_same first :)
  | plain node =>
    dsimp only at ok
    split at ok
    · cases ok
    · cases ok
      exact SameNodes.refl e

/-- The record of a tree's root is written, without what is below it. -/
structure Pushed (e : TreeEncoder) (w : Writer Nat) (label : Nat) (records : List Record) : Prop where
  bytes : e.nodes = recordBytes records
  rows : records.map Record.row = (w.push label).rows
  count : e.nodeCount = w.rows.length
  parent : e.parentIndex = w.parent

def Kept (records records' : List Record) : Prop := records.map Record.data <+: records'.map Record.data

theorem patchPrevNext_shows {prev next : Nat} (bytes : e.nodes = recordBytes records) (before : e.prevIndex < records.length)
    (same : e.prevIndex = prev ∧ e.nodeCount = next) (ok : e.patchPrevNext = some e') :
    ∃ records', e'.nodes = recordBytes records' ∧ records'.map Record.row = link (records.map Record.row) prev next ∧
      e'.nodeCount = e.nodeCount ∧ e'.parentIndex = e.parentIndex ∧ Kept records records' := by
  obtain ⟨rfl, rfl⟩ := same
  unfold patchPrevNext at ok
  split at ok
  · rename_i some_
    obtain ⟨nodes, written, rfl⟩ := map_eq_some_iff.mp ok
    obtain ⟨front, r, back, rfl, place⟩ : ∃ front r back, records = front ++ r :: back ∧ front.length = e.prevIndex := by
      refine ⟨records.take e.prevIndex, records[e.prevIndex], records.drop (e.prevIndex + 1), ?_, ?_⟩
      · rw [getElem_cons_drop, take_append_drop]
      · exact length_take_of_le (Nat.le_of_lt before)
    rw [bytes, ← place, writeLe32_recordBytes] at written
    refine ⟨_, (some_injective _ written).symm, ?_, rfl, rfl, by simp [Kept, Record.link]⟩
    rw [link, if_neg some_, ← place, map_append, map_append, map_cons, map_cons]
    have here := modify_append_length (front.map Record.row) (back.map Record.row)
      (fun row => { row with next := e.nodeCount }) r.row
    rw [length_map] at here
    exact here.symm
  · rename_i none_
    cases ok
    rw [not_not] at none_
    exact ⟨records, bytes, by rw [none_, link_zero], rfl, rfl, prefix_rfl⟩

theorem nextNode_shows (shown : Shows e w records) (room : w.rows.length < 2 ^ 32) (ok : e.nextNode = some e') :
    ∃ records', e'.nodes = recordBytes records' ∧ records'.map Record.row = link w.rows w.prev w.rows.length ∧
      e'.nodeCount = w.rows.length ∧ e'.parentIndex = w.parent ∧ Kept records records' := by
  have count : u32 (e.nodeCount + 1) = w.rows.length := by
    have whole := shown.count
    unfold u32
    omega
  have length : records.length = w.rows.length := by rw [← shown.rows, length_map]
  obtain ⟨records', bytes, rows, counted, parent, kept⟩ := patchPrevNext_shows (e := { e with nodeCount := u32 (e.nodeCount + 1) })
    shown.bytes (by rw [shown.prev, length]; exact shown.before) ⟨shown.prev, count⟩ ok
  exact ⟨records', bytes, shown.rows ▸ rows, counted.trans count, parent.trans shown.parent, kept⟩

theorem pushed_of_append {records : List Record} (bytes : e.nodes = recordBytes records)
    (rows : records.map Record.row = link w.rows w.prev w.rows.length) (count : e.nodeCount = w.rows.length)
    (parent : e.parentIndex = w.parent) {r : Record} (row : r.row = ⟨label, w.parent, 0⟩) :
    Pushed (e.appendNode r.words) w label (records ++ [r]) where
  bytes := by
    rw [appendNode, bytes, recordBytes, recordBytes, flatMap_append, words_append]
    simp
  rows := by
    rw [map_append, rows, map_singleton, row]
    rfl
  count := count
  parent := parent

theorem kept_append (records : List Record) (r : Record) : Kept records (records ++ [r]) := by
  rw [Kept, map_append]
  exact prefix_append _ _

/-- A visit that writes the table of a forest, as long as the rows have room. -/
def Simulates (visit : TreeEncoder → Option TreeEncoder) (ts : List (Rose Nat)) : Prop :=
  ∀ ⦃e e' w records⦄, Shows e w records → w.rows.length + sizes ts ≤ 2 ^ 32 → visit e = some e' →
    ∃ records', Shows e' (w.visitAll ts) records' ∧ Kept records records'

theorem Simulates.nil : Simulates some [] := by
  intro e e' w records shown _ ok
  cases ok
  exact ⟨records, shown, prefix_rfl⟩

theorem Simulates.append {first rest : TreeEncoder → Option TreeEncoder} {us : List (Rose Nat)}
    (front : Simulates first ts) (back : Simulates rest us) : Simulates (fun e => (first e).bind rest) (ts ++ us) := by
  intro e e' w records shown room ok
  rw [sizes_append] at room
  obtain ⟨e₁, ran, last⟩ := bind_eq_some_iff.mp ok
  obtain ⟨records₁, shown₁, kept₁⟩ := front shown (by omega) ran
  obtain ⟨records₂, shown₂, kept₂⟩ := back shown₁ (by rw [w.length_visitAll]; omega) last
  rw [w.visitAll_append]
  exact ⟨records₂, shown₂, kept₁.trans kept₂⟩

theorem Simulates.inside (below : Simulates visit ts) (pushed : Pushed e w label records) (room : w.rows.length + (1 + sizes ts) ≤ 2 ^ 32)
    (ok : e.inside visit = some e') : ∃ records', Shows e' (w.visit (.node label ts)) records' ∧ Kept records records' := by
  obtain ⟨after, ran, last⟩ := bind_eq_some_iff.mp ok
  cases last
  have length : (w.push label).rows.length = w.rows.length + 1 := by simp [Writer.push]
  have shown : Shows { e with prevIndex := 0, parentIndex := e.nodeCount } (w.push label) records :=
    { bytes := pushed.bytes
      rows := pushed.rows
      count := by rw [length, ← pushed.count]
      parent := pushed.count
      prev := rfl
      before := by rw [length]; exact Nat.succ_pos _ }
  obtain ⟨records', shown', kept⟩ := below shown (by omega) ran
  refine ⟨records', ?_, kept⟩
  rw [Writer.visit]
  exact
    { bytes := shown'.bytes
      rows := shown'.rows
      count := shown'.count
      parent := pushed.parent
      prev := pushed.count
      before := by
        have whole := (w.push label).length_visitAll ts
        simp only [Writer.leave]
        omega }

theorem Simulates.list (below : Simulates visit ts) (pos end_ : Int) (length : Nat) :
    Simulates (fun e => e.visitNodeList pos end_ length visit) [.node syntaxKindNodeList ts] := by
  intro e e' w records shown room ok
  obtain ⟨e₁, next, ran⟩ := bind_eq_some_iff.mp ok
  rw [sizes, Rose.size, sizes, Nat.add_zero] at room
  obtain ⟨records₁, bytes, rows, count, parent, kept⟩ := nextNode_shows shown (by omega) next
  let r : Record := ⟨syntaxKindNodeList, e₁.utf16 pos, e₁.utf16 end_, 0, e₁.parentIndex, u32 length, 0⟩
  have pushed : Pushed (e₁.appendNode r.words) w syntaxKindNodeList (records₁ ++ [r]) :=
    pushed_of_append bytes rows count parent (by rw [← parent]; rfl)
  obtain ⟨records', shown', kept'⟩ := below.inside pushed room ran
  exact ⟨records', shown', (kept.trans (kept_append records₁ r)).trans kept'⟩

theorem enterNode_pushed {flags : Nat} (shown : Shows e w records)
    (room : w.rows.length < 2 ^ 32) (ok : e.enterNode id payload pos end_ flags = some e') :
    ∃ records', Pushed e' w payload.kind.ctorIdx records' ∧ Kept records records' := by
  obtain ⟨e₁, next, rest⟩ := bind_eq_some_iff.mp ok
  obtain ⟨⟨nodeData, e₂⟩, recorded, last⟩ := bind_eq_some_iff.mp rest
  obtain ⟨records₁, bytes, rows, count, parent, kept⟩ := nextNode_shows shown room next
  have same := getNodeData_same recorded
  cases last
  let r : Record := ⟨payload.kind.ctorIdx, e₂.utf16 pos, e₂.utf16 end_, 0, e₂.parentIndex, nodeData, flags⟩
  have pushed : Pushed (e₂.appendNode r.words) w payload.kind.ctorIdx (records₁ ++ [r]) :=
    pushed_of_append (same.nodes.trans bytes) rows (same.count.trans count) (same.parent.trans parent)
      (by rw [← parent, ← same.parent]; rfl)
  refine ⟨records₁ ++ [r], ?_, kept.trans (kept_append records₁ r)⟩
  unfold indexNode
  split
  · exact ⟨pushed.bytes, pushed.rows, pushed.count, pushed.parent⟩
  · exact pushed

mutual
theorem visitNode_simulates (n : Node) : Simulates (visitNode n) [n.tree] := by
  obtain ⟨id, payload, pos, end_, flags, children⟩ := n
  intro e e' w records shown room ok
  rw [visitNode] at ok
  obtain ⟨e₁, entered, ran⟩ := bind_eq_some_iff.mp ok
  rw [sizes, Node.tree, Rose.size, sizes, Nat.add_zero] at room
  obtain ⟨records₁, pushed, kept⟩ := enterNode_pushed shown (by omega) entered
  have below := visitChildren_simulates children
  obtain ⟨records', shown', kept'⟩ := below.inside pushed room ran
  exact ⟨records', shown', kept.trans kept'⟩

theorem visitNodes_simulates (nodes : List Node) : Simulates (visitNodes nodes) (nodeTrees nodes) := by
  cases nodes with
  | nil => exact Simulates.nil
  | cons node nodes => exact (visitNode_simulates node).append (visitNodes_simulates nodes)

theorem visitChild_simulates (c : Child) : Simulates (visitChild c) c.trees := by
  cases c with
  | node child => exact visitNode_simulates child
  | list pos end_ nodes => exact (visitNodes_simulates nodes).list pos end_ nodes.length
  | modifiers pos end_ nodes =>
    have below := (visitNodes_simulates nodes).list pos end_ nodes.length
    intro e e' w records shown room ok
    rw [visitChild] at ok
    rw [Child.trees] at room ⊢
    split at ok
    · rename_i none_
      rw [if_pos none_] at room ⊢
      exact Simulates.nil shown room ok
    · rename_i some_
      rw [if_neg some_] at room ⊢
      exact below shown room ok

theorem visitChildren_simulates (cs : List Child) : Simulates (visitChildren cs) (childTrees cs) := by
  cases cs with
  | nil => exact Simulates.nil
  | cons c cs => exact (visitChild_simulates c).append (visitChildren_simulates cs)
end

theorem finishSourceFile_nodes {data : SourceFileData} (ok : e.finishSourceFile id data = some e') : e'.nodes = e.nodes := by
  obtain ⟨_, -, ok⟩ := bind_eq_some_iff.mp ok
  obtain ⟨_, -, ok⟩ := bind_eq_some_iff.mp ok
  obtain ⟨_, -, ok⟩ := bind_eq_some_iff.mp ok
  obtain ⟨_, -, ok⟩ := bind_eq_some_iff.mp ok
  cases ok
  rfl

theorem finish_nodes (ok : e.finish root = some e') : e'.nodes = e.nodes := by
  unfold finish at ok
  split at ok
  · exact finishSourceFile_nodes ok
  · cases ok
    rfl

theorem new_start {sourceFile : Option SourceFile} {positionMap : Int → Int}
    (ok : TreeEncoder.new root sourceFile positionMap = some e) :
    e.nodes = [] ∧ e.nodeCount = 0 ∧ e.parentIndex = 0 ∧ e.prevIndex = 0 := by
  unfold TreeEncoder.new at ok
  split at ok
  · obtain ⟨file, -, rfl⟩ := map_eq_some_iff.mp ok
    exact ⟨rfl, rfl, rfl, rfl⟩
  · cases ok
    exact ⟨rfl, rfl, rfl, rfl⟩

theorem encodeRoot_records (start : e.nodes = [] ∧ e.nodeCount = 0 ∧ e.parentIndex = 0 ∧ e.prevIndex = 0)
    (room : root.tree.size < 2 ^ 32) (ok : e.encodeRoot root = some e') :
    ∃ records, e'.nodes = recordBytes records ∧ records.map Record.row = ⟨0, 0, 0⟩ :: root.tree.rows 1 0 0 ∧
      ∃ found, e.start.getNodeData root.payload root.pos root.end_ = some found ∧
        (records.map Record.data)[1]? = some found.1 := by
  obtain ⟨id, payload, pos, end_, flags, children⟩ := root
  obtain ⟨empty, count, parent, prev⟩ := start
  obtain ⟨⟨nodeData, e₁⟩, recorded, ran⟩ := bind_eq_some_iff.mp ok
  have same := getNodeData_same recorded
  have counted : e₁.nodeCount = 1 := same.count.trans (congrArg (· + 1) count)
  have below : e₁.parentIndex = 1 := same.parent.trans (congrArg (· + 1) parent)
  let r : Record := ⟨payload.kind.ctorIdx, e₁.utf16 pos, e₁.utf16 end_, 0, 0, nodeData, flags⟩
  let w : Writer Nat := ⟨[⟨0, 0, 0⟩, r.row], 1, 0⟩
  have shown : Shows (e₁.appendNode r.words) w [⟨0, 0, 0, 0, 0, 0, 0⟩, r] :=
    { bytes := by
        rw [appendNode, same.nodes, TreeEncoder.start, appendNode, empty]
        rfl
      rows := rfl
      count := congrArg (· + 1) counted
      parent := below
      prev := same.prev.trans prev
      before := Nat.zero_lt_two }
  rw [Node.tree, Rose.size] at room
  have two : w.rows.length = 2 := rfl
  obtain ⟨records, shown', kept⟩ := visitChildren_simulates children shown (by omega) ran
  have first : linkFirst w (childTrees children) = w.rows := by
    unfold linkFirst
    split <;> rfl
  refine ⟨records, shown'.bytes, ?_, _, recorded, prefix_iff_getElem?.mp kept 1 (Nat.lt_succ_self 1)⟩
  rw [shown'.rows, w.visitAll_rows _ Nat.zero_lt_two, first, Node.tree, Rose.rows]
  rfl

end TreeEncoder

def slice (buf : List UInt8) (start stop : Nat) : List UInt8 := (buf.drop start).take (stop - start)

def headerOffsetStringOffsets : Nat := 24
def headerOffsetStringData : Nat := 28
def headerOffsetExtendedData : Nat := 32
def headerOffsetStructuredData : Nat := 36
def headerOffsetNodes : Nat := 40
def nodeOffsetKind : Nat := 0
def nodeOffsetParent : Nat := 16

def nodeField (buf : List UInt8) (index field : Nat) : Nat :=
  readLe32 buf (readLe32 buf headerOffsetNodes + index * nodeSize + field)

/-- The offsets of the header are increasing and cut the buffer into the sections of the encoder. The records after
the nil record are the rows of the tree. -/
structure Represents (buf : List UInt8) (e : TreeEncoder) (tree : Rose Nat) : Prop where
  increasing : [headerSize, readLe32 buf headerOffsetStringData, readLe32 buf headerOffsetExtendedData,
    readLe32 buf headerOffsetStructuredData, readLe32 buf headerOffsetNodes, buf.length].Pairwise (· ≤ ·)
  stringOffsets : readLe32 buf headerOffsetStringOffsets = headerSize ∧
    slice buf headerSize (readLe32 buf headerOffsetStringData) = LittleEndian.words e.strs.offsets
  stringData : slice buf (readLe32 buf headerOffsetStringData) (readLe32 buf headerOffsetExtendedData) =
    e.strs.fileText ++ e.strs.otherStrings
  extendedData : slice buf (readLe32 buf headerOffsetExtendedData) (readLe32 buf headerOffsetStructuredData) = e.extendedData
  structuredData : slice buf (readLe32 buf headerOffsetStructuredData) (readLe32 buf headerOffsetNodes) = e.structuredData
  nodes : slice buf (readLe32 buf headerOffsetNodes) buf.length = e.nodes
  count : e.nodes.length = nodeSize * (1 + tree.size)
  rows : ∀ i row, (tree.rows 1 0 0)[i]? = some row → nodeField buf (1 + i) nodeOffsetKind = row.label ∧
    nodeField buf (1 + i) nodeOffsetParent = row.parent ∧ nodeField buf (1 + i) nodeOffsetNext = row.next

def Small (t : Rose Nat) : Prop := ∀ index parent next, ∀ row ∈ t.rows index parent next, row.label < 2 ^ 32

theorem small_node {label : Nat} {children : List (Rose Nat)} (here : label < 2 ^ 32) (below : ∀ t ∈ children, Small t) :
    Small (.node label children) := by
  intro index parent next row listed
  rcases mem_cons.mp listed with rfl | inside
  · exact here
  · obtain ⟨t, member, i, next', found⟩ := mem_forestRows inside
    exact below t member i _ next' row found

mutual
theorem Node.small_tree (n : Node) : Small n.tree := by
  obtain ⟨id, payload, pos, end_, flags, children⟩ := n
  rw [Node.tree]
  exact small_node (Nat.lt_trans payload.kind.ctorIdx_lt (by decide)) (childTrees_small children)

theorem nodeTrees_small (nodes : List Node) : ∀ t ∈ nodeTrees nodes, Small t := by
  cases nodes with
  | nil =>
    intro t listed
    cases listed
  | cons node nodes => exact forall_mem_cons.mpr ⟨node.small_tree, nodeTrees_small nodes⟩

theorem Child.small_trees (c : Child) : ∀ t ∈ c.trees, Small t := by
  cases c with
  | node child => exact forall_mem_cons.mpr ⟨child.small_tree, fun _ listed => by cases listed⟩
  | list pos end_ nodes =>
    exact forall_mem_cons.mpr ⟨small_node (by decide) (nodeTrees_small nodes), fun _ listed => by cases listed⟩
  | modifiers pos end_ nodes =>
    have below := nodeTrees_small nodes
    rw [Child.trees]
    split
    · exact fun _ listed => by cases listed
    · exact forall_mem_cons.mpr ⟨small_node (by decide) below, fun _ listed => by cases listed⟩

theorem childTrees_small (cs : List Child) : ∀ t ∈ childTrees cs, Small t := by
  cases cs with
  | nil =>
    intro t listed
    cases listed
  | cons c cs => exact forall_mem_append.mpr ⟨c.small_trees, childTrees_small cs⟩
end

theorem slice_eq {buf front mid back : List UInt8} {start stop : Nat} (split : buf = front ++ (mid ++ back))
    (first : start = front.length) (last : stop = start + mid.length) : slice buf start stop = mid := by
  rw [slice, split, last, first, drop_left, Nat.add_sub_cancel_left, take_left]

theorem getElem?_flatMap_words {records : List Record} {k : Nat} {r : Record} (at_ : records[k]? = some r) {j : Nat} (inside : j < 7) :
    (records.flatMap Record.words)[7 * k + j]? = r.words[j]? := by
  induction records generalizing k with
  | nil => cases at_
  | cons first records ih =>
    cases k with
    | zero =>
      cases at_
      rw [flatMap_cons, List.getElem?_append_left (by simpa [Record.words] using inside), Nat.mul_zero, Nat.zero_add]
    | succ k =>
      have long : first.words.length = 7 := rfl
      rw [flatMap_cons, List.getElem?_append_right (by omega), long,
        show 7 * (k + 1) + j - 7 = 7 * k + j by omega]
      exact ih at_

namespace TreeEncoder

def nodesStart (e : TreeEncoder) : Nat :=
  headerSize + e.strs.offsets.length * 4 + e.strs.stringLength + e.extendedData.length + e.structuredData.length

variable {e : TreeEncoder} {hash parseOpts : Nat}

theorem length_header : (e.header hash parseOpts).length = 11 := rfl

theorem readLe32_header {i n : Nat} (at_ : (e.header hash parseOpts)[i]? = some n) :
    readLe32 (e.layout hash parseOpts) (4 * i) = n % 2 ^ 32 := by
  have read := readLe32_words [] (e.strs.encode ++ e.extendedData ++ e.structuredData ++ e.nodes) _ at_
  rw [nil_append, length_nil, Nat.zero_add] at read
  rw [← read, layout, append_assoc, append_assoc, append_assoc, append_assoc, append_assoc]

theorem length_layout : (e.layout hash parseOpts).length = e.nodesStart + e.nodes.length := by
  simp only [layout, length_append, length_header, EncoderStringTable.encode, EncoderStringTable.stringLength, nodesStart,
    length_words, headerSize]
  omega

theorem layout_split (e : TreeEncoder) (hash parseOpts : Nat) : e.layout hash parseOpts = LittleEndian.words (e.header hash parseOpts) ++ (LittleEndian.words e.strs.offsets ++
    ((e.strs.fileText ++ e.strs.otherStrings) ++ (e.extendedData ++ (e.structuredData ++ e.nodes)))) := by
  simp only [layout, EncoderStringTable.encode, append_assoc]

theorem length_words_header (e : TreeEncoder) (hash parseOpts : Nat) : (LittleEndian.words (e.header hash parseOpts)).length = headerSize := by
  rw [length_words, length_header, headerSize]

theorem layout_offsets (e : TreeEncoder) (hash parseOpts : Nat) (short : e.nodesStart < 2 ^ 32) :
    readLe32 (e.layout hash parseOpts) headerOffsetStringOffsets = headerSize ∧
    readLe32 (e.layout hash parseOpts) headerOffsetStringData = headerSize + e.strs.offsets.length * 4 ∧
    readLe32 (e.layout hash parseOpts) headerOffsetExtendedData =
      headerSize + e.strs.offsets.length * 4 + e.strs.stringLength ∧
    readLe32 (e.layout hash parseOpts) headerOffsetStructuredData =
      headerSize + e.strs.offsets.length * 4 + e.strs.stringLength + e.extendedData.length ∧
    readLe32 (e.layout hash parseOpts) headerOffsetNodes = e.nodesStart := by
  have read {i n : Nat} (at_ : (e.header hash parseOpts)[i]? = some n) (fits : n < 2 ^ 32) :
      readLe32 (e.layout hash parseOpts) (4 * i) = n := by rw [readLe32_header at_, Nat.mod_eq_of_lt fits]
  have start := short
  unfold nodesStart at start
  exact ⟨read (i := 6) rfl (by decide), read (i := 7) rfl (by omega), read (i := 8) rfl (by omega),
    read (i := 9) rfl (by omega), read (i := 10) rfl short⟩

theorem length_before_nodes (e : TreeEncoder) (hash parseOpts : Nat) : (LittleEndian.words (e.header hash parseOpts) ++
    (LittleEndian.words e.strs.offsets ++ ((e.strs.fileText ++ e.strs.otherStrings) ++
      (e.extendedData ++ e.structuredData)))).length = e.nodesStart := by
  rw [length_append, length_words_header]
  simp only [length_append, length_words, nodesStart, EncoderStringTable.stringLength]
  omega

theorem nodeField_layout {records : List Record} (nodes : e.nodes = recordBytes records) (short : e.nodesStart < 2 ^ 32)
    {k j n : Nat} {r : Record} (at_ : records[k]? = some r) (inside : r.words[j]? = some n) (fits : n < 2 ^ 32) :
    nodeField (e.layout hash parseOpts) k (4 * j) = n := by
  have column : j < 7 := (List.getElem?_eq_some_iff.mp inside).1
  have whole : e.layout hash parseOpts = (LittleEndian.words (e.header hash parseOpts) ++ (LittleEndian.words e.strs.offsets ++
      ((e.strs.fileText ++ e.strs.otherStrings) ++ (e.extendedData ++ e.structuredData)))) ++
      (LittleEndian.words (records.flatMap Record.words) ++ []) := by
    rw [layout_split, nodes, recordBytes]
    simp only [append_assoc, append_nil]
  have place : readLe32 (e.layout hash parseOpts) headerOffsetNodes + k * nodeSize + 4 * j = e.nodesStart + 4 * (7 * k + j) := by
    rw [(e.layout_offsets hash parseOpts short).2.2.2.2, nodeSize]
    omega
  rw [nodeField, place, whole, ← e.length_before_nodes hash parseOpts, readLe32_words _ _ _ ((getElem?_flatMap_words at_ column).trans inside),
    Nat.mod_eq_of_lt fits]

theorem represents_layout {tree : Rose Nat} {records : List Record} (nodes : e.nodes = recordBytes records)
    (rows : records.map Record.row = ⟨0, 0, 0⟩ :: tree.rows 1 0 0) (small : Small tree) (room : tree.size < 2 ^ 32)
    (short : e.nodesStart < 2 ^ 32) : Represents (e.layout hash parseOpts) e tree := by
  have count : e.nodes.length = nodeSize * (1 + tree.size) := by
    have long := congrArg List.length rows
    rw [length_map, length_cons, tree.length_rows] at long
    rw [nodes, recordBytes, length_words, length_flatMap_words, long, nodeSize]
    omega
  obtain ⟨a₀, a₁, a₂, a₃, a₄⟩ := e.layout_offsets hash parseOpts short
  have split := e.layout_split hash parseOpts
  have head := e.length_words_header hash parseOpts
  have length : (e.layout hash parseOpts).length = e.nodesStart + e.nodes.length := e.length_layout
  have field (i : Nat) (row : Row Nat) (at_ : (tree.rows 1 0 0)[i]? = some row) : ∃ r, records[1 + i]? = some r ∧ r.row = row := by
    have found : (records.map Record.row)[1 + i]? = some row := by
      rw [rows, Nat.add_comm, List.getElem?_cons_succ, at_]
    rw [List.getElem?_map] at found
    exact map_eq_some_iff.mp found
  refine ⟨?_, ⟨a₀, ?_⟩, ?_, ?_, ?_, ?_, count, ?_⟩
  · rw [a₁, a₂, a₃, a₄, length, nodesStart]
    simp only [pairwise_cons, mem_cons, not_mem_nil, or_false, forall_eq_or_imp, forall_eq, false_imp_iff,
      implies_true, List.Pairwise.nil, and_true]
    omega
  · exact slice_eq split head.symm (by rw [a₁, length_words]; omega)
  · have data : e.layout hash parseOpts = (LittleEndian.words (e.header hash parseOpts) ++ LittleEndian.words e.strs.offsets) ++
        ((e.strs.fileText ++ e.strs.otherStrings) ++ (e.extendedData ++ (e.structuredData ++ e.nodes))) := by
      simp only [split, append_assoc]
    refine slice_eq data ?_ ?_
    · rw [a₁, length_append, head, length_words]
      omega
    · rw [a₂, a₁, EncoderStringTable.stringLength, length_append]
  · have data : e.layout hash parseOpts = (LittleEndian.words (e.header hash parseOpts) ++ LittleEndian.words e.strs.offsets ++
        (e.strs.fileText ++ e.strs.otherStrings)) ++ (e.extendedData ++ (e.structuredData ++ e.nodes)) := by
      simp only [split, append_assoc]
    refine slice_eq data ?_ (by rw [a₃, a₂])
    rw [a₂, length_append, length_append, length_append, head, length_words, EncoderStringTable.stringLength]
    omega
  · have data : e.layout hash parseOpts = (LittleEndian.words (e.header hash parseOpts) ++ LittleEndian.words e.strs.offsets ++
        (e.strs.fileText ++ e.strs.otherStrings) ++ e.extendedData) ++ (e.structuredData ++ e.nodes) := by
      simp only [split, append_assoc]
    refine slice_eq data ?_ (by rw [a₄, a₃, nodesStart])
    rw [a₃, length_append, length_append, length_append, length_append, head, length_words,
      EncoderStringTable.stringLength]
    omega
  · have data : e.layout hash parseOpts = (LittleEndian.words (e.header hash parseOpts) ++ (LittleEndian.words e.strs.offsets ++
        ((e.strs.fileText ++ e.strs.otherStrings) ++ (e.extendedData ++ e.structuredData)))) ++ (e.nodes ++ []) := by
      simp only [split, append_assoc, append_nil]
    exact slice_eq data (a₄.trans (e.length_before_nodes hash parseOpts).symm) (by rw [a₄, length])
  intro i row at_
  obtain ⟨r, here, rfl⟩ := field i row at_
  have listed : r.row ∈ tree.rows 1 0 0 := mem_of_getElem? at_
  have zero : 0 < 2 ^ 32 := by decide
  have refers := tree.refers_lt (show 1 + tree.size ≤ 2 ^ 32 by omega) zero zero _ listed
  exact ⟨nodeField_layout (j := 0) nodes short here rfl (small _ _ _ _ listed),
    nodeField_layout (j := 4) nodes short here rfl refers.1, nodeField_layout (j := 3) nodes short here rfl refers.2⟩

end TreeEncoder

variable {root : Node} {sourceFile : Option SourceFile} {positionMap : Int → Int} {buf : List UInt8}

theorem encodeTree_eq_some (ok : encodeTree root sourceFile positionMap = some buf) :
    ∃ e hash parseOpts, encoded root sourceFile positionMap = some e ∧ buf = e.layout hash parseOpts := by
  obtain ⟨e, done, ok⟩ := bind_eq_some_iff.mp ok
  obtain ⟨⟨hash, parseOpts⟩, -, ok⟩ := bind_eq_some_iff.mp ok
  cases ok
  exact ⟨e, hash, parseOpts, done, rfl⟩

theorem encoded_records {e : TreeEncoder} (done : encoded root sourceFile positionMap = some e) (room : root.tree.size < 2 ^ 32) :
    ∃ records, e.nodes = recordBytes records ∧ records.map Record.row = ⟨0, 0, 0⟩ :: root.tree.rows 1 0 0 := by
  obtain ⟨e₀, start, done⟩ := bind_eq_some_iff.mp done
  obtain ⟨e₁, ran, finished⟩ := bind_eq_some_iff.mp done
  obtain ⟨records, bytes, rows, -⟩ := TreeEncoder.encodeRoot_records (TreeEncoder.new_start start) room ran
  exact ⟨records, (TreeEncoder.finish_nodes finished).trans bytes, rows⟩

theorem length_nodes {e : TreeEncoder} (done : encoded root sourceFile positionMap = some e)
    (room : root.tree.size < 2 ^ 32) : e.nodes.length = nodeSize * (1 + root.tree.size) := by
  obtain ⟨records, bytes, rows⟩ := encoded_records done room
  have long := congrArg List.length rows
  rw [length_map, length_cons, Rose.length_rows] at long
  rw [bytes, recordBytes, length_words, length_flatMap_words, long, nodeSize]
  omega

/-- The table represents the tree as long as its rows and the sections before it have 32-bit addresses. -/
theorem encodeTree_represents (ok : encodeTree root sourceFile positionMap = some buf) (room : root.tree.size < 2 ^ 32)
    (short : buf.length < 2 ^ 32 + nodeSize * (1 + root.tree.size)) :
    ∃ e, encoded root sourceFile positionMap = some e ∧ Represents buf e root.tree := by
  obtain ⟨e, hash, parseOpts, done, rfl⟩ := encodeTree_eq_some ok
  obtain ⟨records, bytes, rows⟩ := encoded_records done room
  rw [e.length_layout, length_nodes done room] at short
  exact ⟨e, done, TreeEncoder.represents_layout bytes rows root.small_tree room (by omega)⟩

theorem block_plain : getNodeDataType .block = nodeDataTypeChildren := by decide

def emptyBlock : Node := .mk 0 (.plain ⟨.block, block_plain, 0, 1⟩) 0 2 0 [.list 1 1 []]

def fullBlock : Node := .mk 0 (.plain ⟨.block, block_plain, 0, 1⟩) 0 5 0
  [.list 1 4 [.mk 1 (.plain ⟨.expressionStatement, by decide, 0, 1⟩) 1 4 0 [.node (.mk 2 (.identifier "foo") 1 4 0 [])]]]

theorem encodeTree_represents_block : ∃ buf e, encodeTree emptyBlock none id = some buf ∧
    encoded emptyBlock none id = some e ∧ Represents buf e emptyBlock.tree := by
  have run : (encodeTree emptyBlock none id).map List.length = some 128 := by decide +kernel
  obtain ⟨buf, ok, length⟩ := map_eq_some_iff.mp run
  obtain ⟨e, done, represents⟩ := encodeTree_represents ok (by decide) (by rw [length]; decide)
  exact ⟨buf, e, ok, done, represents⟩

def identifierNode (text : String) : Node := .mk 0 (.identifier text) 0 0 0 []

theorem encoded_identifierNode (text : String) : ∃ e buf, encoded (identifierNode text) none id = some e ∧
    encodeTree (identifierNode text) none id = some buf ∧ buf = e.layout 0 0 ∧
    e.nodesStart = headerSize + 8 + (bytes text).length ∧ e.nodes.length = 2 * nodeSize := by
  refine ⟨_, _, rfl, rfl, rfl, ?_, rfl⟩
  have data : (([] : List UInt8) ++ bytes text).length = (bytes text).length := rfl
  change headerSize + 2 * 4 + (0 + (([] : List UInt8) ++ bytes text).length) + 0 + 0 = _
  omega

theorem length_bytes_replicate (n : Nat) : (bytes (String.ofList (List.replicate n 'a'))).length = n := by
  rw [bytes, String.toByteArray_ofList]
  induction n with
  | zero => rfl
  | succ n ih =>
    have one : (List.utf8Encode ['a']).data.toList.length = 1 := by decide +kernel
    rw [replicate_succ, utf8Encode_cons, ByteArray.data_append, Array.toList_append, length_append, ih, one,
      Nat.add_comm]

/-- A text of 2 ^ 32 bytes does not leave 32-bit addresses for the records. -/
theorem encodeTree_overflows : ¬∀ root sourceFile positionMap buf, encodeTree root sourceFile positionMap = some buf →
    ∃ e, encoded root sourceFile positionMap = some e ∧ Represents buf e root.tree := by
  intro always
  obtain ⟨e, buf, done, ok, whole, start, nodes⟩ := encoded_identifierNode (String.ofList (List.replicate (2 ^ 32) 'a'))
  obtain ⟨e', done', represents⟩ := always _ _ _ _ ok
  obtain rfl := some_injective _ (done'.symm.trans done)
  subst whole
  have last := congrArg List.length represents.nodes
  rw [slice, length_take, length_drop, TreeEncoder.length_layout,
    show headerOffsetNodes = 4 * 10 from rfl, TreeEncoder.readLe32_header (i := 10) rfl] at last
  rw [length_bytes_replicate, headerSize] at start
  omega

end TypeScriptRs.Api
