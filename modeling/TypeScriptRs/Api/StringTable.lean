import TypeScriptRs.Api.RoundTrip

/-! The texts of nodes in the string table, and the words of nodes that point to them. -/
namespace TypeScriptRs.Api
open LittleEndian Frames Machine List
open Syntax (Kind)

def EncoderStringTable.textAt (t : EncoderStringTable) (index : Nat) : Option (List UInt8) := do
  let start ← t.offsets[index]?
  let stop ← t.offsets[index + 1]?
  if start ≤ stop ∧ stop ≤ t.stringLength then some (slice (t.fileText ++ t.otherStrings) start stop) else none

structure Entry where
  text : String
  kind : Kind
  pos : Int
  end_ : Int

namespace TreeEncoder

def addStrings (e : TreeEncoder) : List Entry → Option TreeEncoder
  | [] => some e
  | entry :: later => do
    let (_, e) ← e.addString entry.text entry.kind entry.pos entry.end_
    e.addStrings later

/-- The text is added without a panic, and read back from the table however many are added later. -/
def ReadsBack (e : TreeEncoder) (entry : Entry) : Prop :=
  ∃ index after, e.addString entry.text entry.kind entry.pos entry.end_ = some (index, after) ∧
    ∀ later final, after.addStrings later = some final → final.strs.textAt index = some (bytes entry.text)

/-- The source before the end of the node, without a closing quote, is as long as the node's text. -/
def Reaches (e : TreeEncoder) (entry : Entry) : Prop :=
  entry.kind = .sourceFile ∨
    (0 < i32 (entry.end_ - entry.pos) ∧ 0 ≤ entry.end_ ∧ entry.end_ ≤ e.strs.fileText.length →
      (bytes entry.text).length + (if entry.kind = .stringLiteral ∨ entry.kind = .templateTail ∨
        entry.kind = .noSubstitutionTemplateLiteral then 1 else 0) ≤ entry.end_)

/-- The string data and its table have 32-bit addresses, and a source file stands for its whole text. -/
structure Fits (e : TreeEncoder) (entry : Entry) : Prop where
  data : e.strs.stringLength + (bytes entry.text).length < 2 ^ 32
  table : e.strs.offsets.length < 2 ^ 32
  file : entry.kind = .sourceFile → entry.pos = 0 ∧ entry.end_ = e.strs.fileText.length ∧ bytes entry.text = e.strs.fileText

variable {e e' final : TreeEncoder} {entry : Entry} {index k : Nat} {text : String}

theorem addStrings_grows {later : List Entry} (ok : e.addStrings later = some final) : Grows e final 0 := by
  induction later generalizing e with
  | nil =>
    cases ok
    exact Grows.refl _
  | cons entry later ih =>
    obtain ⟨added, first, rest⟩ := Option.bind_eq_some_iff.mp ok
    exact (addString_grows first).trans (ih rest)

theorem u32_of_lt {n : Nat} (small : n < 2 ^ 32) : u32 n = n := by
  unfold u32
  omega

theorem Placed.textAt (placed : Placed e index text) (short : e.strs.stringLength < 2 ^ 32) (grows : Grows e final k) :
    final.strs.textAt index = some (bytes text) := by
  obtain ⟨front, back, strings, first, last⟩ := placed.strings
  obtain ⟨more, longer⟩ := grows.otherStrings
  obtain ⟨later, further⟩ := grows.offsets
  have long := congrArg List.length strings
  rw [length_append, length_append, length_append] at long
  unfold EncoderStringTable.stringLength at short
  rw [u32_of_lt (by omega)] at first
  rw [← Nat.cast_add, u32_of_lt (by omega)] at last
  have first' : final.strs.offsets[index]? = some front.length := by
    rw [← further, List.getElem?_append_left (List.getElem?_eq_some_iff.mp first).1, first]
  have last' : final.strs.offsets[index + 1]? = some (front.length + (bytes text).length) := by
    rw [← further, List.getElem?_append_left (List.getElem?_eq_some_iff.mp last).1, last]
  have whole : final.strs.fileText ++ final.strs.otherStrings = front ++ (bytes text ++ (back ++ more)) := by
    rw [grows.fileText, ← longer, ← append_assoc, strings]
    simp only [append_assoc]
  have inside : front.length + (bytes text).length ≤ final.strs.stringLength := by
    have total := congrArg List.length whole
    simp only [length_append] at total
    unfold EncoderStringTable.stringLength
    omega
  unfold EncoderStringTable.textAt
  rw [first', last']
  change (if front.length ≤ _ ∧ _ then some (slice _ _ _) else none) = _
  rw [if_pos ⟨Nat.le_add_right _ _, inside⟩, whole, slice, drop_left, Nat.add_sub_cancel_left, take_left]

theorem addString_isSome_iff (other : entry.kind ≠ .sourceFile) :
    (∃ added, e.addString entry.text entry.kind entry.pos entry.end_ = some added) ↔ e.Reaches entry := by
  have mapped : (∃ added, e.addString entry.text entry.kind entry.pos entry.end_ = some added) ↔
      (e.strs.add entry.text entry.kind entry.pos entry.end_).isSome := by
    rw [← Option.isSome_iff_exists, addString, Option.isSome_map]
  rw [mapped]
  unfold EncoderStringTable.add Reaches
  rw [if_neg other, or_iff_right other]
  dsimp only
  generalize (if entry.kind = .stringLiteral ∨ entry.kind = .templateTail ∨ entry.kind = .noSubstitutionTemplateLiteral
    then (1 : Int) else 0) = endOffset
  split
  · rename_i inFile
    rw [forall_prop_of_true inFile]
    split
    · exact iff_of_false Bool.false_ne_true (by omega)
    · refine iff_of_true ?_ (by omega)
      split <;> rfl
  · rename_i outside
    exact iff_of_true rfl fun inFile => absurd inFile outside

theorem addString_length {added : Nat × TreeEncoder} (ok : e.addString entry.text entry.kind entry.pos entry.end_ = some added) :
    added.2.strs.stringLength ≤ e.strs.stringLength + (bytes entry.text).length := by
  obtain ⟨⟨index, strs⟩, inner, rfl⟩ := Option.map_eq_some_iff.mp ok
  have other : (e.strs.addOther (bytes entry.text)).2.stringLength = e.strs.stringLength + (bytes entry.text).length := by
    simp [EncoderStringTable.addOther, EncoderStringTable.stringLength, Nat.add_assoc]
  unfold EncoderStringTable.add at inner
  dsimp only at inner
  generalize (if entry.kind = .stringLiteral ∨ entry.kind = .templateTail ∨ entry.kind = .noSubstitutionTemplateLiteral
    then (1 : Int) else 0) = endOffset at inner
  split at inner
  · cases inner
    exact Nat.le_add_right _ _
  split at inner
  · split at inner
    · cases inner
    split at inner
    · cases inner
      exact Nat.le_add_right _ _
    · cases inner
      exact other.le
  · cases inner
    exact other.le

theorem sourceFile_placed {added : Nat × TreeEncoder} (same : entry.kind = .sourceFile) (fits : Fits e entry)
    (ok : e.addString entry.text entry.kind entry.pos entry.end_ = some added) :
    added.1 = e.strs.offsets.length ∧ Placed added.2 e.strs.offsets.length entry.text := by
  obtain ⟨start, stop, whole⟩ := fits.file same
  rw [same] at ok
  obtain ⟨index, offsets, -⟩ := addString_sourceFile ok
  have grows := addString_grows ok
  obtain ⟨more, longer⟩ := grows.otherStrings
  refine ⟨by rw [index, u32_of_lt fits.table], ⟨[], added.2.strs.otherStrings, ?_, ?_, ?_⟩⟩
  · rw [grows.fileText, whole, nil_append]
  · rw [offsets, List.getElem?_append_right (le_refl _), Nat.sub_self, start]
    rfl
  · rw [offsets, List.getElem?_append_right (Nat.le_succ _), Nat.succ_sub (le_refl _), Nat.sub_self, stop, whole]
    simp

end TreeEncoder

/-- The encoder of a file that begins with `1e9`. -/
def exponentEncoder : TreeEncoder where
  strs := { fileText := bytes "1e9;" }
  positionMap := id
  nodeIndexMap := ∅
  sourceFile := none

def Payload.common : Payload → Nat
  | .jsxText _ containsOnlyTriviaWhiteSpaces => if containsOnlyTriviaWhiteSpaces then 1 else 0
  | _ => 0

namespace TreeEncoder

/-- The string index or the offset of extended data that the next node's word is to hold. -/
def pointer (e : TreeEncoder) : Payload → Option Nat
  | .plain _ => none
  | .identifier _ | .privateIdentifier _ | .jsxText _ _ => some e.strs.offsets.length
  | _ => some e.extendedData.length

/-- Masking the word gives the pointer and the common data back. -/
def Readable (e : TreeEncoder) (payload : Payload) (word : Nat) : Prop := ∀ index ∈ e.pointer payload,
  word &&& nodeDataStringIndexMask = index ∧ (word >>> 24) &&& 0x3f = payload.common

/-- The data of nodes, one after the other as they are visited. -/
def recordNodes (e : TreeEncoder) : List (Payload × Int × Int) → Option TreeEncoder
  | [] => some e
  | (payload, pos, end_) :: later => do
    let (_, e) ← e.getNodeData payload pos end_
    e.recordNodes later

variable {e after : TreeEncoder} {payload : Payload} {pos end_ : Int} {word index tag common : Nat}

theorem addString_index {text : String} {kind : Kind} {added : Nat × TreeEncoder} (other : kind ≠ .sourceFile)
    (ok : e.addString text kind pos end_ = some added) : added.1 = u32 e.strs.offsets.length :=
  (addString_placed other ok).1

theorem getNodeData_word (ok : e.getNodeData payload pos end_ = some (word, after)) (index_ : index ∈ e.pointer payload) :
    ∃ tag, (tag = nodeDataTypeString ∨ tag = nodeDataTypeExtendedData) ∧ word = tag ||| payload.common <<< 24 ||| u32 index := by
  unfold getNodeData at ok
  unfold Payload.common
  cases payload with
  | identifier | privateIdentifier | jsxText =>
    obtain ⟨added, first, same⟩ := Option.map_eq_some_iff.mp ok
    have found := addString_index (fun same => by cases same) first
    cases index_
    cases same
    refine ⟨nodeDataTypeString, .inl rfl, ?_⟩
    simp only [found, Nat.zero_shiftLeft]
  | plain => cases index_
  | _ =>
    obtain ⟨added, first, same⟩ := Option.map_eq_some_iff.mp ok
    cases index_
    cases same
    refine ⟨nodeDataTypeExtendedData, .inr rfl, ?_⟩
    simp only [Nat.zero_shiftLeft, Nat.or_zero]

theorem masked_index (listed : tag = nodeDataTypeString ∨ tag = nodeDataTypeExtendedData) (common index : Nat) :
    (tag ||| common <<< 24 ||| u32 index) &&& nodeDataStringIndexMask = index % 2 ^ 24 := by
  have high : tag % 2 ^ 24 = 0 := by
    rcases listed with rfl | rfl <;> decide
  have middle : common <<< 24 % 2 ^ 24 = 0 := by
    rw [Nat.shiftLeft_eq, Nat.mul_mod_left]
  have low : u32 index % 2 ^ 24 = index % 2 ^ 24 := by
    unfold u32
    omega
  rw [show nodeDataStringIndexMask = 2 ^ 24 - 1 from rfl, Nat.and_two_pow_sub_one_eq_mod, Nat.or_mod_two_pow, Nat.or_mod_two_pow,
    high, middle, low, Nat.or_zero, Nat.zero_or]

theorem masked_common (listed : tag = nodeDataTypeString ∨ tag = nodeDataTypeExtendedData) (few : common < 2 ^ 6) (small : index < 2 ^ 24) :
    (tag ||| common <<< 24 ||| u32 index) >>> 24 &&& 0x3f = common := by
  have high : tag >>> 24 % 2 ^ 6 = 0 := by
    rcases listed with rfl | rfl <;> decide
  have middle : common <<< 24 >>> 24 = common := Nat.shiftLeft_shiftRight common 24
  have low : u32 index >>> 24 = 0 := by
    rw [u32_of_lt (by omega), Nat.shiftRight_eq_div_pow, Nat.div_eq_of_lt small]
  rw [show 0x3f = 2 ^ 6 - 1 from rfl, Nat.and_two_pow_sub_one_eq_mod, Nat.shiftRight_or_distrib, Nat.shiftRight_or_distrib, middle, low,
    Nat.or_zero, Nat.or_mod_two_pow, high, Nat.zero_or, Nat.mod_eq_of_lt few]

theorem common_lt (payload : Payload) : payload.common < 2 ^ 6 := by
  unfold Payload.common
  split
  · split <;> decide
  · decide

end TreeEncoder

theorem TreeEncoder.nodeData_readable_iff {e after : TreeEncoder} {payload : Payload} {pos end_ : Int} {word : Nat}
    (ok : e.getNodeData payload pos end_ = some (word, after)) :
    e.Readable payload word ↔ ∀ index ∈ e.pointer payload, index < 2 ^ 24 := by
  constructor
  · intro readable index index_
    obtain ⟨tag, listed, rfl⟩ := getNodeData_word ok index_
    have masked := (readable index index_).1
    rw [masked_index listed] at masked
    omega
  · intro small index index_
    obtain ⟨tag, listed, rfl⟩ := getNodeData_word ok index_
    rw [masked_index listed, masked_common listed (common_lt payload) (small index index_)]
    exact ⟨Nat.mod_eq_of_lt (small index index_), rfl⟩

theorem TreeEncoder.nodeData_readable_iff_identifier :
    ∃ word after, exponentEncoder.getNodeData (.identifier "e9") 1 3 = some (word, after) ∧
      exponentEncoder.Readable (.identifier "e9") word := by
  obtain ⟨⟨word, after⟩, ok⟩ : ∃ found, exponentEncoder.getNodeData (.identifier "e9") 1 3 = some found := ⟨_, rfl⟩
  refine ⟨word, after, ok, (nodeData_readable_iff ok).mpr fun index same => ?_⟩
  cases same
  decide

/-- A file with an array of so many numbers, `[1,1,1]` and so on. -/
def arrayText (n : Nat) : String := "[" ++ String.ofList (List.replicate n ['1', ',']).flatten ++ "]"

def arrayData (n : Nat) : SourceFileData where
  text := arrayText n
  fileName := "/a.ts"
  accepted := by decide
  path := "/a.ts"
  languageVariant := 0
  scriptKind := 3
  referencedFiles := []
  typeReferenceDirectives := []
  libReferenceDirectives := []
  hash := 0
  jsx := false
  force := false
  imports := []
  moduleAugmentations := []
  ambientModuleNames := []
  externalModuleIndicator := none

def arrayEncoder (n : Nat) : TreeEncoder where
  strs := { fileText := bytes (arrayText n) }
  positionMap := id
  nodeIndexMap := ∅
  sourceFile := some ⟨arrayData n, 0, (bytes (arrayText n)).length, .inl ⟨rfl, rfl⟩⟩

def number (i : Nat) : Payload × Int × Int := (.numericLiteral "1" 0, 2 * i + 1, 2 * i + 2)

def plainNode (kind : Kind) (plain : getNodeDataType kind = nodeDataTypeChildren) : Payload :=
  .plain ⟨kind, plain, ⟨0, Nat.zero_lt_succ _⟩, ⟨1, Nat.lt_of_sub_eq_succ rfl⟩⟩

/-- The nodes of the file before its last number, as they are visited. -/
def arrayNodes (n : Nat) : List (Payload × Int × Int) :=
  let stop : Int := (bytes (arrayText n)).length
  (.sourceFile (arrayData n), 0, stop) :: (plainNode .expressionStatement rfl, 0, stop) ::
    (plainNode .arrayLiteralExpression rfl, 0, stop) :: (List.range n).map number

variable {e e' after : TreeEncoder}

theorem number_recorded (e : TreeEncoder) (i : Nat) : ∃ word after,
    e.getNodeData (.numericLiteral "1" 0) (2 * i + 1) (2 * i + 2) = some (word, after) ∧
      after.extendedData.length = e.extendedData.length + 8 := by
  have one : (bytes "1").length = 1 := by decide
  have reaches : e.Reaches ⟨"1", .numericLiteral, 2 * i + 1, 2 * i + 2⟩ := .inr fun _ => by
    dsimp only
    rw [one, if_neg (by decide)]
    omega
  obtain ⟨added, ok⟩ := (TreeEncoder.addString_isSome_iff fun same => by cases same).mpr reaches
  have kept := (TreeEncoder.addString_placed (fun same => by cases same) ok).2.2.2
  refine ⟨nodeDataTypeExtendedData ||| u32 e.extendedData.length, added.2.appendExtended [added.1, (0 : UInt32).toNat], ?_, ?_⟩
  · unfold TreeEncoder.getNodeData TreeEncoder.recordLiteral
    dsimp only [Payload.text, Payload.kind]
    rw [ok]
    rfl
  · rw [TreeEncoder.appendExtended, length_append, kept, length_words]
    rfl

theorem numbers_recorded (indices : List Nat) (e : TreeEncoder) : ∃ after, e.recordNodes (indices.map number) = some after ∧
      after.extendedData.length = e.extendedData.length + 8 * indices.length := by
  induction indices generalizing e with
  | nil => exact ⟨e, rfl, rfl⟩
  | cons i indices ih =>
    obtain ⟨word, next, ok, length⟩ := number_recorded e i
    obtain ⟨after, later, total⟩ := ih next
    refine ⟨after, ?_, ?_⟩
    · rw [map_cons, number, TreeEncoder.recordNodes, ok]
      exact later
    · rw [total, length, length_cons]
      omega

theorem array_recorded (n : Nat) : ∃ after, (arrayEncoder n).recordNodes (arrayNodes n) = some after ∧
    after.extendedData.length = 48 + 8 * n := by
  obtain ⟨⟨word, root⟩, ok, length⟩ : ∃ found, (arrayEncoder n).getNodeData (.sourceFile (arrayData n)) 0 (bytes (arrayText n)).length =
      some found ∧ found.2.extendedData.length = 48 := ⟨_, rfl, rfl⟩
  obtain ⟨after, ran, total⟩ := numbers_recorded (List.range n) root
  refine ⟨after, ?_, by rw [total, length, length_range]⟩
  rw [arrayNodes, TreeEncoder.recordNodes, ok]
  exact ran

/-- The number after as many that their data take up the 24 bits is in a file of four megabytes. -/
theorem array_unreadable : ¬∀ n e word after, (arrayEncoder n).recordNodes (arrayNodes n) = some e →
    e.getNodeData (.numericLiteral "1" 0) (2 * n + 1) (2 * n + 2) = some (word, after) →
    e.Readable (.numericLiteral "1" 0) word := by
  intro always
  obtain ⟨e, ran, length⟩ := array_recorded (2 ^ 21)
  obtain ⟨word, after, ok, -⟩ := number_recorded e (2 ^ 21)
  have masked := (always _ e word after ran ok e.extendedData.length rfl).1
  have small : word &&& nodeDataStringIndexMask < 2 ^ 24 := Nat.and_lt_two_pow _ (by decide)
  omega

end TypeScriptRs.Api
