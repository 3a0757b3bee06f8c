import Mathlib.Tactic.Ring
import TypeScriptRs.SourceMap.Encoding

/-! The decoder reads every mapping of an encoded list, in order and without error. -/
namespace TypeScriptRs.SourceMap
open Machine List

def textBytes (text : List Char) : List UInt8 := text.flatMap String.utf8EncodeChar

theorem asBytes_eq (text : String) : asBytes text = textBytes text.toList := by
  conv_lhs => rw [← String.ofList_toList (s := text)]
  simp [asBytes, textBytes, String.ofList, List.utf8Encode]

@[simp] theorem textBytes_append (a b : List Char) : textBytes (a ++ b) = textBytes a ++ textBytes b := by
  simp [textBytes]

def digitByte (digit : Nat) : UInt8 := UInt8.ofNat (base64Char digit).toNat

theorem digitByte_facts : ∀ digit < 64, String.utf8EncodeChar (base64Char digit) = [digitByte digit] ∧
    base64FormatDecode (digitByte digit) = digit ∧
    digitByte digit ≠ 44 ∧ digitByte digit ≠ 59 := by decide

def vlqBytes (x : Int) : List UInt8 := (Vlq.groups (Vlq.fold x)).map digitByte

theorem textBytes_vlqText (x : Int) : textBytes (vlqText x) = vlqBytes x := by
  have single : ∀ ds : List Nat, (∀ d ∈ ds, d < 64) →
      textBytes (ds.map base64Char) = ds.map digitByte := by
    intro ds hd
    induction ds with
    | nil => rfl
    | cons d ds ih =>
      have tail := ih (fun e he => hd e (by simp [he]))
      simp only [textBytes, map_cons, flatMap_cons] at tail ⊢
      rw [(digitByte_facts d (hd d (by simp))).1, tail]
      rfl
  exact single _ (Vlq.groups_digit _)

theorem payload_bits : ∀ digit < 64, digit &&& 31 = digit % 32 := by decide

theorem continuation_bit : ∀ digit < 64, (digit &&& 32 ≠ 0 ↔ 32 ≤ digit) := by decide

theorem getElem_of_drop {bytes tail : List UInt8} {b : UInt8} {pos : Nat}
    (rest : bytes.drop pos = b :: tail) : bytes[pos]? = some b ∧ bytes.drop (pos + 1) = tail := by
  constructor
  · have h := congrArg List.head? rest
    simpa [List.head?_drop] using h
  · rw [← tail_drop, rest]
    rfl

namespace MappingsDecoder

variable {value : Nat} {d : MappingsDecoder} {rest : List UInt8} {r : Running}

theorem register_add {shift : Nat} (digit : Nat) (low : value < 2 ^ shift) (small : digit < 64)
    (fits : value + digit % 32 * 2 ^ shift < 2 ^ 32) (inside : shift < 32) :
    (value ||| (digit &&& 31) <<< (shift % 32)) % 2 ^ 32 = value + digit % 32 * 2 ^ shift := by
  rw [Nat.mod_eq_of_lt inside, payload_bits digit small, Nat.or_comm,
    ← Nat.shiftLeft_add_eq_or_of_lt low, Nat.shiftLeft_eq, Nat.add_comm, Nat.mod_eq_of_lt fits]

theorem register_sign (fits : value < 2 ^ 31) :
    (if value % 2 = 0 then i32 value / 2 else i32 (-(i32 value / 2))) = Vlq.unfold value := by
  have range : i32 (value : Int) = value := i32_of_range (by omega) (by exact_mod_cast fits)
  rw [range, Vlq.unfold]
  split
  · simp
  · rw [i32_of_range (by norm_num at *; omega) (by norm_num at *; omega)]
    simp

theorem vlqDigits_spec (n : Nat) : ∀ (fuel shift value : Nat) (d : MappingsDecoder) (rest : List UInt8),
    d.mappings.drop d.pos = (Vlq.groups n).map digitByte ++ rest →
    (Vlq.groups n).length ≤ fuel → value < 2 ^ shift → value + n * 2 ^ shift < 2 ^ 31 →
    (shift = 0 ∨ 0 < n) →
    vlqDigits fuel shift value d =
      (Vlq.unfold (value + n * 2 ^ shift), { d with pos := d.pos + (Vlq.groups n).length }) := by
  induction n using Nat.strongRecOn with
  | ind n ih =>
    intro fuel shift value d rest text enough low fits start
    have inside : shift < 32 := by
      rcases start with h | h
      · omega
      · by_contra large
        have : 2 ^ 32 ≤ 2 ^ shift := Nat.pow_le_pow_right (by decide) (by omega)
        have : 2 ^ shift ≤ n * 2 ^ shift := Nat.le_mul_of_pos_left _ h
        omega
    obtain ⟨fuel, rfl⟩ : ∃ k, fuel = k + 1 :=
      Nat.exists_eq_succ_of_ne_zero (by
        have := length_pos_of_ne_nil (Vlq.groups_nonempty n)
        omega)
    by_cases small : n < 32
    · rw [Vlq.groups_last small] at text enough ⊢
      have digit := digitByte_facts n (by omega)
      obtain ⟨hb, _⟩ := getElem_of_drop text
      have last : ¬ (n &&& 32 ≠ 0) := by
        rw [continuation_bit n (by omega)]
        omega
      have whole : n % 32 = n := Nat.mod_eq_of_lt small
      have sum := register_add n low (by omega) (by rw [whole]; omega) inside
      rw [whole] at sum
      simp only [vlqDigits, hb, digit.2.1, Int.toNat_natCast, sum, if_neg last]
      rw [if_neg (by omega), register_sign fits]
      rfl
    rw [Vlq.groups_more small] at text enough ⊢
    have below : n % 32 + 32 < 64 := by omega
    have digit := digitByte_facts (n % 32 + 32) below
    obtain ⟨hb, htail⟩ := getElem_of_drop text
    have more : (n % 32 + 32) &&& 32 ≠ 0 := (continuation_bit _ below).mpr (by omega)
    have part : (n % 32 + 32) % 32 = n % 32 := by omega
    have parts : n * 2 ^ shift = n % 32 * 2 ^ shift + n / 32 * 2 ^ (shift + 5) := by
      rw [Nat.pow_add]
      conv_lhs => rw [← Nat.mod_add_div n 32]
      ring
    have sum := register_add (n % 32 + 32) low below (by rw [part]; omega) inside
    rw [part] at sum
    have next : value + n % 32 * 2 ^ shift < 2 ^ (shift + 5) := by
      have : n % 32 < 32 := Nat.mod_lt _ (by decide)
      rw [Nat.pow_add]
      nlinarith
    have step := ih (n / 32) (by omega) fuel (shift + 5) (value + n % 32 * 2 ^ shift)
      { d with pos := d.pos + 1 } rest htail (by simpa using enough) next
      (by omega) (.inr (by omega))
    simp only [vlqDigits, hb, digit.2.1, Int.toNat_natCast, sum, if_pos more]
    rw [if_neg (by omega), step, parts]
    simp only [length_cons, Nat.add_assoc, Nat.add_comm 1]

def running (d : MappingsDecoder) : Running :=
  ⟨d.generatedLine, d.generatedCharacter, d.sourceIndex, d.sourceLine, d.sourceCharacter, d.nameIndex⟩

/-- A decoder that has not failed, with the bytes it has left and its running values. -/
structure Reads (d : MappingsDecoder) (rest : List UInt8) (r : Running) : Prop where
  rest : d.mappings.drop d.pos = rest
  running : d.running = r
  error : d.error = none
  done : d.done = false

theorem Reads.left (h : d.Reads rest r) : d.mappings.length - d.pos = rest.length := by
  rw [← h.rest, length_drop]

theorem Reads.number {d : MappingsDecoder} {x : Int} {rest : List UInt8} {r : Running}
    (h : d.Reads (vlqBytes x ++ rest) r) (low : -2 ^ 30 < x) (high : x < 2 ^ 30) :
    ∃ d', d.base64VlqFormatDecode = (x, d') ∧ d'.Reads rest r := by
  have fits : 0 + Vlq.fold x * 2 ^ 0 < 2 ^ 31 := by simpa using Vlq.fold_bound low high
  have enough : (Vlq.groups (Vlq.fold x)).length ≤ d.mappings.length - d.pos := by
    rw [h.left]
    simp [vlqBytes]
  have read := vlqDigits_spec (Vlq.fold x) _ 0 0 d rest h.rest enough (by decide) fits (.inl rfl)
  refine ⟨{ d with pos := d.pos + (Vlq.groups (Vlq.fold x)).length }, ?_, ?_, h.running, h.error, h.done⟩
  · rw [base64VlqFormatDecode, read]
    simp [Vlq.unfold_fold]
  · rw [← drop_drop, h.rest]
    simp [vlqBytes]

theorem Reads.delta {new old : Int} (h : d.Reads (vlqBytes (new - old) ++ rest) r) (hn : InRange new) (ho : InRange old) :
    ∃ d', d.base64VlqFormatDecode = (new - old, d') ∧ d'.Reads rest r ∧ i32 (old + (new - old)) = new := by
  obtain ⟨n0, n1⟩ := hn
  obtain ⟨o0, o1⟩ := ho
  obtain ⟨d', hd, hr⟩ := h.number (by norm_num; omega) (by norm_num; omega)
  refine ⟨d', hd, hr, ?_⟩
  rw [i32_of_range (by norm_num; omega) (by norm_num; omega)]
  omega

def EndsSegment : List UInt8 → Prop
  | [] => True
  | b :: _ => b = 44 ∨ b = 59

theorem Reads.segmentEnd (h : d.Reads rest r) (ends : EndsSegment rest) : d.isSourceMappingSegmentEnd = true := by
  unfold isSourceMappingSegmentEnd
  cases rest with
  | nil =>
    have past : d.mappings.length ≤ d.pos := drop_eq_nil_iff.mp h.rest
    simp [List.getElem?_eq_none past]
  | cons b tail =>
    rw [(getElem_of_drop h.rest).1]
    rcases ends with rfl | rfl <;> rfl

theorem vlqBytes_head (x : Int) : ∃ b tail, vlqBytes x = b :: tail ∧ b ≠ 44 ∧ b ≠ 59 := by
  unfold vlqBytes
  cases hg : Vlq.groups (Vlq.fold x) with
  | nil => exact absurd hg (Vlq.groups_nonempty _)
  | cons d ds =>
    have small := Vlq.groups_digit (Vlq.fold x) d (by simp [hg])
    have facts := digitByte_facts d small
    exact ⟨digitByte d, ds.map digitByte, rfl, facts.2.2.1, facts.2.2.2⟩

theorem Reads.notSegmentEnd {x : Int} (h : d.Reads (vlqBytes x ++ rest) r) : d.isSourceMappingSegmentEnd = false := by
  obtain ⟨b, tail, hv, comma, semicolon⟩ := vlqBytes_head x
  rw [hv] at h
  unfold isSourceMappingSegmentEnd
  rw [(getElem_of_drop h.rest).1]
  simp [comma, semicolon]

theorem Reads.capture (h : d.Reads rest r) (hasSource hasName : Bool) : d.captureMapping hasSource hasName =
      { generatedLine := r.line
        generatedCharacter := r.character
        sourceIndex := if hasSource then r.sourceIndex else missingSource
        sourceLine := if hasSource then r.sourceLine else missingLineOrColumn
        sourceCharacter := if hasSource then r.sourceCharacter else missingLineOrColumn
        nameIndex := if hasName then r.nameIndex else missingName } := by
  rw [← h.running]
  rfl

theorem Reads.noError (h : d.Reads rest r) : d.hasReportedError = false := by
  rw [hasReportedError, h.error]
  rfl

section
variable {d : MappingsDecoder} {rest : List UInt8} {r : Running} (h : d.Reads rest r) (x : Int)
include h

theorem Reads.setGeneratedCharacter : { d with generatedCharacter := x }.Reads rest { r with character := x } :=
  ⟨h.rest, by rw [← h.running]; rfl, h.error, h.done⟩

theorem Reads.setSourceIndex : { d with sourceIndex := x }.Reads rest { r with sourceIndex := x } :=
  ⟨h.rest, by rw [← h.running]; rfl, h.error, h.done⟩

theorem Reads.setSourceLine : { d with sourceLine := x }.Reads rest { r with sourceLine := x } :=
  ⟨h.rest, by rw [← h.running]; rfl, h.error, h.done⟩

theorem Reads.setSourceCharacter : { d with sourceCharacter := x }.Reads rest { r with sourceCharacter := x } :=
  ⟨h.rest, by rw [← h.running]; rfl, h.error, h.done⟩

theorem Reads.setNameIndex : { d with nameIndex := x }.Reads rest { r with nameIndex := x } :=
  ⟨h.rest, by rw [← h.running]; rfl, h.error, h.done⟩
end

section
variable {d : MappingsDecoder} {m : Mapping} {rest : List UInt8} {r : Running}

def nameBytes (r : Running) (m : Mapping) : List UInt8 :=
  if m.nameIndex = missingName then [] else vlqBytes (m.nameIndex - r.nameIndex)

def afterName (r : Running) (m : Mapping) : Running :=
  { r with nameIndex := if m.nameIndex = missingName then r.nameIndex else m.nameIndex }

theorem nextName_spec (h : d.Reads (nameBytes r m ++ rest) r) (ranged : r.Ranged)
    (name : m.nameIndex ≠ missingName → InRange m.nameIndex) (ends : EndsSegment rest)
    (fields : { m with nameIndex := missingName } =
      ⟨r.line, r.character, r.sourceIndex, r.sourceLine, r.sourceCharacter, missingName⟩) :
    ∃ d', d.nextName = (some m, d') ∧ d'.Reads rest (afterName r m) := by
  unfold nameBytes at h
  unfold afterName
  obtain ⟨gl, gc, si, sl, sc, ni⟩ := m
  obtain ⟨rfl, rfl, rfl, rfl, rfl, -⟩ := fields
  by_cases absent : ni = missingName
  · simp only [if_pos absent, nil_append] at h ⊢
    refine ⟨d, ?_, h⟩
    rw [nextName, if_pos (h.segmentEnd ends), h.capture, absent]
    rfl
  simp only [if_neg absent] at h ⊢
  obtain ⟨d₁, hd, hr, sum⟩ := h.delta (name absent) ranged.nameIndex
  have old : d₁.nameIndex = r.nameIndex := congrArg Running.nameIndex hr.running
  have read := hr.setNameIndex ni
  refine ⟨_, ?_, read⟩
  rw [nextName, h.notSegmentEnd, hd]
  simp only [Bool.false_eq_true, if_false, old, sum, read.noError, read.segmentEnd ends,
    Bool.not_true, read.capture]
  rw [if_neg (not_lt.mpr (name absent).1)]
  rfl

theorem nextSourceCharacter_spec (sc : Int) (h : d.Reads (vlqBytes (m.sourceCharacter - sc) ++ nameBytes r m ++ rest)
      { r with sourceCharacter := sc })
    (ranged : r.Ranged) (old : InRange sc)
    (name : m.nameIndex ≠ missingName → InRange m.nameIndex) (ends : EndsSegment rest)
    (fields : { m with nameIndex := missingName } =
      ⟨r.line, r.character, r.sourceIndex, r.sourceLine, r.sourceCharacter, missingName⟩) :
    ∃ d', d.nextSourceCharacter = (some m, d') ∧ d'.Reads rest (afterName r m) := by
  have value : m.sourceCharacter = r.sourceCharacter := congrArg Mapping.sourceCharacter fields
  rw [append_assoc, value] at h
  obtain ⟨d₁, hd, hr, sum⟩ := h.delta ranged.sourceCharacter old
  have was : d₁.sourceCharacter = sc := congrArg Running.sourceCharacter hr.running
  have read := hr.setSourceCharacter r.sourceCharacter
  obtain ⟨d', hn, hd'⟩ := nextName_spec read ranged name ends fields
  refine ⟨d', ?_, hd'⟩
  rw [nextSourceCharacter, hd]
  simp only [was, sum, read.noError, Bool.false_eq_true, if_false]
  rw [if_neg (not_lt.mpr ranged.sourceCharacter.1)]
  exact hn

theorem nextSourceLine_spec {sl sc : Int} (h : d.Reads (vlqBytes (m.sourceLine - sl) ++ (vlqBytes (m.sourceCharacter - sc) ++
      nameBytes r m ++ rest)) { r with sourceLine := sl, sourceCharacter := sc })
    (ranged : r.Ranged) (oldLine : InRange sl) (old : InRange sc)
    (name : m.nameIndex ≠ missingName → InRange m.nameIndex) (ends : EndsSegment rest)
    (fields : { m with nameIndex := missingName } =
      ⟨r.line, r.character, r.sourceIndex, r.sourceLine, r.sourceCharacter, missingName⟩) :
    ∃ d', d.nextSourceLine = (some m, d') ∧ d'.Reads rest (afterName r m) := by
  have value : m.sourceLine = r.sourceLine := congrArg Mapping.sourceLine fields
  rw [value] at h
  obtain ⟨d₁, hd, hr, sum⟩ := h.delta ranged.sourceLine oldLine
  have was : d₁.sourceLine = sl := congrArg Running.sourceLine hr.running
  have read := hr.setSourceLine r.sourceLine
  obtain ⟨d', hn, hd'⟩ := nextSourceCharacter_spec sc read ranged old name ends fields
  refine ⟨d', ?_, hd'⟩
  rw [append_assoc] at read
  rw [nextSourceLine, hd]
  simp only [was, sum, read.noError, read.notSegmentEnd, Bool.false_eq_true, if_false]
  rw [if_neg (not_lt.mpr ranged.sourceLine.1)]
  exact hn

theorem nextSource_spec (complete : m.Complete) (ranged : r.Ranged)
    (line : r.line = m.generatedLine) (character : r.character = m.generatedCharacter)
    (h : d.Reads ((if m.sourceIndex = missingSource then [] else
      vlqBytes (m.sourceIndex - r.sourceIndex) ++ (vlqBytes (m.sourceLine - r.sourceLine) ++
        (vlqBytes (m.sourceCharacter - r.sourceCharacter) ++ nameBytes r m))) ++ rest) r)
    (ends : EndsSegment rest) :
    ∃ d', d.nextSource = (some m, d') ∧ d'.Reads rest (r.after m) := by
  obtain ⟨hl, hc, absentFields, present, name⟩ := complete
  by_cases absent : m.sourceIndex = missingSource
  · obtain ⟨noLine, noCharacter, noName⟩ := absentFields absent
    simp only [if_pos absent, nil_append] at h
    refine ⟨d, ?_, ?_⟩
    · rw [nextSource, if_pos (h.segmentEnd ends), h.capture]
      cases m
      simp_all
    · simpa only [Running.after, if_pos absent, ← line, ← character] using h
  obtain ⟨hi, hsl, hsc⟩ := present absent
  simp only [if_neg absent, append_assoc] at h
  obtain ⟨d₁, hd, hr, sum⟩ := h.delta hi ranged.sourceIndex
  have was : d₁.sourceIndex = r.sourceIndex := congrArg Running.sourceIndex hr.running
  have read := hr.setSourceIndex m.sourceIndex
  let full : Running := ⟨m.generatedLine, m.generatedCharacter, m.sourceIndex, m.sourceLine,
    m.sourceCharacter, r.nameIndex⟩
  have fullRanged : full.Ranged := ⟨hl, hc, hi, hsl, hsc, ranged.nameIndex⟩
  have start : { d₁ with sourceIndex := m.sourceIndex }.Reads
      (vlqBytes (m.sourceLine - r.sourceLine) ++ (vlqBytes (m.sourceCharacter - r.sourceCharacter) ++
        nameBytes full m ++ rest))
      { full with sourceLine := r.sourceLine, sourceCharacter := r.sourceCharacter } := by
    simpa only [full, ← line, ← character, append_assoc, nameBytes] using read
  obtain ⟨d', hn, hd'⟩ := nextSourceLine_spec start fullRanged ranged.sourceLine
    ranged.sourceCharacter name ends rfl
  refine ⟨d', ?_, ?_⟩
  · rw [nextSource, h.notSegmentEnd, hd]
    simp only [Bool.false_eq_true, if_false, was, sum, read.noError, start.notSegmentEnd]
    rw [if_neg (not_lt.mpr hi.1)]
    exact hn
  · simpa only [Running.after, if_neg absent, afterName, full] using hd'

theorem textBytes_segment (r : Running) (m : Mapping) : textBytes (r.segment m) = vlqBytes (m.generatedCharacter - r.character) ++
      (if m.sourceIndex = missingSource then [] else
        vlqBytes (m.sourceIndex - r.sourceIndex) ++ (vlqBytes (m.sourceLine - r.sourceLine) ++
          (vlqBytes (m.sourceCharacter - r.sourceCharacter) ++ nameBytes r m))) := by
  unfold Running.segment nameBytes
  rw [textBytes_append, textBytes_vlqText]
  split
  · rfl
  · split <;> simp [textBytes_vlqText, append_assoc]

theorem nextSegment_spec (complete : m.Complete) (ranged : r.Ranged) (line : r.line = m.generatedLine)
    (h : d.Reads (textBytes (r.segment m) ++ rest) r) (ends : EndsSegment rest) :
    ∃ d', d.nextSegment = (some m, d') ∧ d'.Reads rest (r.after m) := by
  rw [textBytes_segment, append_assoc] at h
  obtain ⟨d₁, hd, hr, sum⟩ := h.delta complete.2.1 ranged.character
  have was : d₁.generatedCharacter = r.character := congrArg Running.character hr.running
  have read := hr.setGeneratedCharacter m.generatedCharacter
  obtain ⟨d', hn, hd'⟩ := nextSource_spec (r := { r with character := m.generatedCharacter }) complete
    { ranged with character := complete.2.1 } line rfl read ends
  refine ⟨d', ?_, ?_⟩
  · rw [nextSegment, hd]
    simp only [was, sum, read.noError, Bool.false_eq_true, if_false]
    rw [if_neg (not_lt.mpr complete.2.1.1)]
    exact hn
  · simpa only [Running.after] using hd'
end

theorem textBytes_replicate (count : Nat) : textBytes (List.replicate count ';') = List.replicate count 59 := by
  induction count with
  | zero => rfl
  | succ count ih =>
    simp only [textBytes, replicate_succ, flatMap_cons] at ih ⊢
    rw [ih]
    rfl

theorem nextMappingLoop_lines (count : Nat) : ∀ (fuel : Nat) (d : MappingsDecoder) (rest : List UInt8)
    (r : Running), d.Reads (List.replicate count 59 ++ rest) r → 0 ≤ r.line → r.line + count < 2 ^ 31 →
    ∃ d', nextMappingLoop (count + fuel) d = nextMappingLoop fuel d' ∧
      d'.Reads rest (r.atLine (r.line + count)) := by
  induction count with
  | zero =>
    intro fuel d rest r h _ _
    exact ⟨d, by rw [Nat.zero_add], by simpa [Running.atLine] using h⟩
  | succ count ih =>
    intro fuel d rest r h nonneg fits
    obtain ⟨hb, tail⟩ := getElem_of_drop h.rest
    have line : d.generatedLine = r.line := congrArg Running.line h.running
    have next : i32 (d.generatedLine + 1) = r.line + 1 := by
      rw [line, i32_of_range (by norm_num; omega) (by omega)]
    let d₁ : MappingsDecoder := { d with
      generatedLine := r.line + 1, generatedCharacter := 0, pos := d.pos + 1 }
    have h₁ : d₁.Reads (List.replicate count 59 ++ rest) { r with line := r.line + 1, character := 0 } :=
      ⟨tail, by rw [← h.running]; simp [d₁, running, line], h.error, h.done⟩
    obtain ⟨d', hd, hr⟩ := ih fuel d₁ rest _ h₁ (by dsimp only; omega)
      (by push_cast at fits ⊢; omega)
    refine ⟨d', ?_, ?_⟩
    · rw [show count + 1 + fuel = count + fuel + 1 by omega, nextMappingLoop, hb]
      simpa [next] using hd
    have split : (Running.atLine { r with line := r.line + 1, character := 0 } (r.line + 1 + count)) =
        r.atLine (r.line + (count + 1 : Nat)) := by
      unfold Running.atLine
      rw [if_pos (show r.line < r.line + (count + 1 : Nat) by push_cast; omega)]
      split
      · push_cast
        simp only [add_comm, add_left_comm]
      · rename_i stay
        have none : count = 0 := by simp at stay; omega
        subst none
        simp
    rw [← split]
    exact hr

theorem after_atLine (r : Running) (m : Mapping) : (r.atLine m.generatedLine).after m = r.after m := by
  simp [Running.after]

theorem atLine_line {line : Int} (forward : r.line ≤ line) : (r.atLine line).line = line := by
  unfold Running.atLine
  split
  · rfl
  · omega

theorem segment_head (r : Running) (m : Mapping) : ∃ b tail, textBytes (r.segment m) = b :: tail ∧ b ≠ 44 ∧ b ≠ 59 := by
  obtain ⟨b, tail, hv, comma, semicolon⟩ := vlqBytes_head (m.generatedCharacter - r.character)
  rw [textBytes_segment, hv]
  exact ⟨b, _, rfl, comma, semicolon⟩

theorem nextMappingLoop_segment {m : Mapping} (h : d.Reads (textBytes (r.segment m) ++ rest) r) (fuel : Nat) :
    nextMappingLoop (fuel + 1) d = d.nextSegment := by
  obtain ⟨b, tail, hv, comma, semicolon⟩ := segment_head r m
  rw [hv] at h
  rw [nextMappingLoop, (getElem_of_drop h.rest).1]
  simp [comma, semicolon]

section
variable {d : MappingsDecoder} {m : Mapping} {rest : List UInt8} {r : Running} {hasLast : Bool}

theorem nextMappingLoop_separators (complete : m.Complete) (ranged : r.Ranged)
    (h : d.Reads (textBytes (r.encodeOne hasLast m) ++ rest) r) :
    ∃ fuel d', nextMappingLoop (d.mappings.length - d.pos) d = nextMappingLoop (fuel + 1) d' ∧
      d'.Reads (textBytes ((r.atLine m.generatedLine).segment m) ++ rest) (r.atLine m.generatedLine) := by
  obtain ⟨b, tail, hv, -, -⟩ := segment_head (r.atLine m.generatedLine) m
  have bytes := h.left
  rw [Running.encodeOne, textBytes_append, append_assoc] at h bytes
  unfold Running.separators at h bytes
  split at h
  · rename_i later
    rw [if_pos later] at bytes
    rw [textBytes_replicate] at h bytes
    have target : r.line + ((m.generatedLine - r.line).toNat : Int) = m.generatedLine := by omega
    have fits := complete.1.2
    obtain ⟨d', hd, hr⟩ := nextMappingLoop_lines _
      (textBytes ((r.atLine m.generatedLine).segment m) ++ rest).length d _ r h ranged.line.1
      (by rw [target]; norm_num at fits ⊢; omega)
    rw [target] at hr
    refine ⟨(tail ++ rest).length, d', ?_, hr⟩
    rw [bytes, length_append, length_replicate, hd, hv]
    rfl
  rename_i same
  rw [if_neg same] at bytes
  have stay : r.atLine m.generatedLine = r := if_neg same
  cases hasLast with
  | true =>
    obtain ⟨hb, hrest⟩ := getElem_of_drop h.rest
    refine ⟨(tail ++ rest).length, { d with pos := d.pos + 1 }, ?_, hrest, ?_, h.error, h.done⟩
    · rw [bytes, if_pos rfl, hv, length_append, Nat.add_comm, textBytes]
      rw [show (List.flatMap String.utf8EncodeChar [',']).length = 1 from rfl, nextMappingLoop, hb]
      rfl
    · rw [stay]
      exact h.running
  | false =>
    refine ⟨(tail ++ rest).length, d, ?_, ?_⟩
    · rw [bytes, if_neg (by simp), hv]
      rfl
    · rw [stay] at h ⊢
      exact h

theorem nextMapping_spec (complete : m.Complete) (ranged : r.Ranged) (forward : r.line ≤ m.generatedLine)
    (h : d.Reads (textBytes (r.encodeOne hasLast m) ++ rest) r) (ends : EndsSegment rest) :
    ∃ d', d.nextMapping = (some m, d') ∧ d'.Reads rest (r.after m) := by
  obtain ⟨fuel, d₁, skipped, read⟩ := nextMappingLoop_separators complete ranged h
  obtain ⟨d', hn, hr⟩ := nextSegment_spec complete (ranged_atLine ranged complete.1)
    (atLine_line forward) read ends
  refine ⟨d', ?_, by rwa [after_atLine] at hr⟩
  rw [nextMapping, h.done, if_neg (by simp), skipped, nextMappingLoop_segment read, hn]

theorem encode_endsSegment (r : Running) (ms : List Mapping) : EndsSegment (textBytes (r.encode true ms)) := by
  cases ms with
  | nil => trivial
  | cons m ms =>
    simp only [Running.encode, Running.encodeOne, Running.separators]
    split
    · obtain ⟨count, hc⟩ : ∃ count, (m.generatedLine - r.line).toNat = count + 1 :=
        Nat.exists_eq_succ_of_ne_zero (by omega)
      rw [textBytes_append, textBytes_append, hc, textBytes_replicate]
      exact .inr rfl
    · exact .inl rfl

theorem nextMapping_nil (h : d.Reads [] r) : d.nextMapping = (none, { d with done := true }) := by
  have past : d.mappings.length ≤ d.pos := drop_eq_nil_iff.mp h.rest
  rw [nextMapping, h.done, if_neg (by simp), Nat.sub_eq_zero_of_le past]
  rfl
end

theorem collect_spec (ms : List Mapping) : ∀ (fuel : Nat) (d : MappingsDecoder) (r : Running)
    (hasLast : Bool), Encodable r ms → r.Ranged → d.Reads (textBytes (r.encode hasLast ms)) r →
    ms.length < fuel →
    ∃ d', d.collect fuel = (ms, d') ∧ d'.error = none ∧ d'.done = true := by
  induction ms with
  | nil =>
    intro fuel d r hasLast _ _ h enough
    obtain ⟨fuel, rfl⟩ : ∃ k, fuel = k + 1 := Nat.exists_eq_succ_of_ne_zero (by omega)
    refine ⟨{ d with done := true }, ?_, h.error, rfl⟩
    rw [collect, nextMapping_nil h]
  | cons m ms ih =>
    intro fuel d r hasLast encodable ranged h enough
    obtain ⟨fuel, rfl⟩ : ∃ k, fuel = k + 1 := Nat.exists_eq_succ_of_ne_zero (by omega)
    obtain ⟨complete, forward, further⟩ := encodable
    rw [Running.encode, textBytes_append] at h
    obtain ⟨d₁, hn, read⟩ := nextMapping_spec complete ranged forward h
      (encode_endsSegment _ ms)
    obtain ⟨d', hc, clean⟩ := ih fuel d₁ _ true further (ranged_after ranged complete) read
      (by simpa using enough)
    refine ⟨d', ?_, clean⟩
    rw [collect, hn]
    simp only [hc]

theorem length_le_bytes (ms : List Mapping) (r : Running) (hasLast : Bool) :
    ms.length ≤ (textBytes (r.encode hasLast ms)).length := by
  induction ms generalizing r hasLast with
  | nil => simp
  | cons m ms ih =>
    obtain ⟨b, tail, hv, -, -⟩ := segment_head (r.atLine m.generatedLine) m
    have further := ih (r.after m) true
    simp only [Running.encode, Running.encodeOne, textBytes_append, hv, length_append,
      length_cons]
    omega

theorem collectAll_spec {text : String} {ms : List Mapping} (encodable : Encodable .start ms)
    (written : text.toList = Running.start.encode false ms) :
    ∃ d', (decodeMappings text).collectAll = (ms, d') ∧ d'.error = none ∧ d'.done = true := by
  have bytes : (decodeMappings text).mappings = textBytes (Running.start.encode false ms) := by
    rw [decodeMappings, asBytes_eq, written]
  have read : (decodeMappings text).Reads (textBytes (Running.start.encode false ms)) .start :=
    ⟨by rw [← bytes]; rfl, rfl, rfl, rfl⟩
  refine collect_spec ms _ _ _ false encodable Running.start_ranged read ?_
  have enough := length_le_bytes ms .start false
  rw [bytes]
  omega

end MappingsDecoder

end TypeScriptRs.SourceMap
