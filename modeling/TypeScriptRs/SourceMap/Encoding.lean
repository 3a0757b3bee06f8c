import TypeScriptRs.Lib.Vlq
import TypeScriptRs.SourceMap.Generator
import TypeScriptRs.SourceMap.Decoder

/-! The text of a list of mappings, as deltas against six running values. -/
namespace TypeScriptRs.SourceMap
open Machine

variable {r : Running} {m : Mapping}

def base64Char (value : Nat) : Char :=
  if value ≤ 25 then Char.ofNat (65 + value)
  else if value ≤ 51 then Char.ofNat (97 + (value - 26))
  else if value ≤ 61 then Char.ofNat (48 + (value - 52))
  else if value = 62 then '+' else '/'

theorem base64FormatEncode_ok {value : Nat} (small : value < 64) : base64FormatEncode value = .ok (base64Char value) := by
  unfold base64FormatEncode base64Char
  repeat' split
  all_goals first | rfl | omega

def vlqText (x : Int) : List Char := (Vlq.groups (Vlq.fold x)).map base64Char

theorem or_continuation : ∀ d < 32, d ||| 32 = d + 32 := by decide

theorem appendDigits_text (fuel n : Nat) (mappings : String) (bound : n < 32 ^ (fuel + 1)) :
    ∃ written, Generator.appendDigits (fuel + 1) n mappings = .ok written ∧
      written.toList = mappings.toList ++ (Vlq.groups n).map base64Char := by
  induction fuel generalizing n mappings with
  | zero =>
    have small : n < 32 := by simpa using bound
    have rem : ((n : Int) % 32).toNat = n := by omega
    have quot : (n : Int) / 32 = 0 := by omega
    refine ⟨mappings.push (base64Char n), ?_, ?_⟩
    · simp [Generator.appendDigits, rem, quot, base64FormatEncode_ok (show n < 64 by omega)]
    · simp [Vlq.groups_last small]
  | succ fuel ih =>
    have rem : ((n : Int) % 32).toNat = n % 32 := by omega
    by_cases small : n < 32
    · have quot : (n : Int) / 32 = 0 := by omega
      refine ⟨mappings.push (base64Char n), ?_, ?_⟩
      · rw [Generator.appendDigits]
        simp [rem, quot, Nat.mod_eq_of_lt small, base64FormatEncode_ok (show n < 64 by omega)]
      · simp [Vlq.groups_last small]
    have quot : (n : Int) / 32 = ((n / 32 : Nat) : Int) := by omega
    have positive : ((n / 32 : Nat) : Int) > 0 := by omega
    have digit : n % 32 ||| 32 = n % 32 + 32 := or_continuation _ (Nat.mod_lt _ (by decide))
    have next : n / 32 < 32 ^ (fuel + 1) := by
      rw [Nat.div_lt_iff_lt_mul (by decide), ← Nat.pow_succ]
      exact bound
    obtain ⟨written, hw, ht⟩ := ih (n / 32) (mappings.push (base64Char (n % 32 + 32))) next
    refine ⟨written, ?_, ?_⟩
    · rw [Generator.appendDigits]
      simp only [rem, quot, if_pos positive, digit, Outcome.bind_ok,
        base64FormatEncode_ok (show n % 32 + 32 < 64 by omega), if_neg (not_le.mpr positive)]
      exact hw
    · rw [ht, Vlq.groups_more small]
      simp

theorem appendBase64Vlq_text (mappings : String) (x : Int) (low : -2 ^ 30 < x) (high : x < 2 ^ 30) :
    ∃ written, Generator.appendBase64Vlq mappings x = .ok written ∧
      written.toList = mappings.toList ++ vlqText x := by
  have folded : (if x < 0 then i32 (i32 (i32 (-x) * 2) + 1) else i32 (x * 2)) = (Vlq.fold x : Int) := by
    norm_num at low high
    unfold Vlq.fold
    split
    · rw [i32_of_range (x := -x) (by norm_num; omega) (by norm_num; omega),
        i32_of_range (x := -x * 2) (by norm_num; omega) (by norm_num; omega),
        i32_of_range (by norm_num; omega) (by norm_num; omega)]
      omega
    · rw [i32_of_range (by norm_num; omega) (by norm_num; omega)]
      omega
  have bound : Vlq.fold x < 32 ^ 7 := lt_trans (Vlq.fold_bound low high) (by norm_num)
  obtain ⟨written, hw, ht⟩ := appendDigits_text 6 (Vlq.fold x) mappings bound
  exact ⟨written, by rw [Generator.appendBase64Vlq, folded]; exact hw, ht⟩

structure Running where
  line : Int
  character : Int
  sourceIndex : Int
  sourceLine : Int
  sourceCharacter : Int
  nameIndex : Int

namespace Running

def start : Running := ⟨0, 0, 0, 0, 0, 0⟩

/-- Opening later lines resets the generated column and nothing else. -/
def atLine (r : Running) (line : Int) : Running :=
  if r.line < line then { r with line := line, character := 0 } else r

section
variable (r : Running) (line : Int)

@[simp] theorem atLine_sourceIndex :
    (r.atLine line).sourceIndex = r.sourceIndex := by
  unfold atLine
  split <;> rfl

@[simp] theorem atLine_sourceLine :
    (r.atLine line).sourceLine = r.sourceLine := by
  unfold atLine
  split <;> rfl

@[simp] theorem atLine_sourceCharacter :
    (r.atLine line).sourceCharacter = r.sourceCharacter := by
  unfold atLine
  split <;> rfl

@[simp] theorem atLine_nameIndex :
    (r.atLine line).nameIndex = r.nameIndex := by
  unfold atLine
  split <;> rfl
end

def separators (r : Running) (hasLast : Bool) (line : Int) : List Char :=
  if r.line < line then List.replicate (line - r.line).toNat ';'
  else if hasLast then [','] else []

def segment (r : Running) (m : Mapping) : List Char :=
  vlqText (m.generatedCharacter - r.character) ++
  (if m.sourceIndex = missingSource then [] else
    vlqText (m.sourceIndex - r.sourceIndex) ++ vlqText (m.sourceLine - r.sourceLine) ++
    vlqText (m.sourceCharacter - r.sourceCharacter) ++
    (if m.nameIndex = missingName then [] else vlqText (m.nameIndex - r.nameIndex)))

def after (r : Running) (m : Mapping) : Running :=
  if m.sourceIndex = missingSource then
    { r with line := m.generatedLine, character := m.generatedCharacter }
  else
    { line := m.generatedLine, character := m.generatedCharacter, sourceIndex := m.sourceIndex,
      sourceLine := m.sourceLine, sourceCharacter := m.sourceCharacter,
      nameIndex := if m.nameIndex = missingName then r.nameIndex else m.nameIndex }

def afterAll (r : Running) : List Mapping → Running
  | [] => r
  | m :: ms => (r.after m).afterAll ms

def encodeOne (r : Running) (hasLast : Bool) (m : Mapping) : List Char :=
  r.separators hasLast m.generatedLine ++ (r.atLine m.generatedLine).segment m

def encode (r : Running) (hasLast : Bool) : List Mapping → List Char
  | [] => []
  | m :: ms => r.encodeOne hasLast m ++ (r.after m).encode true ms

theorem afterAll_append (r : Running) (ms : List Mapping) (m : Mapping) : r.afterAll (ms ++ [m]) = (r.afterAll ms).after m := by
  induction ms generalizing r with
  | nil => rfl
  | cons a ms ih => simp only [List.cons_append, afterAll, ih]

theorem encode_append (r : Running) (hasLast : Bool) (ms : List Mapping) (m : Mapping) : r.encode hasLast (ms ++ [m]) =
      r.encode hasLast ms ++ (r.afterAll ms).encodeOne (hasLast || !ms.isEmpty) m := by
  induction ms generalizing r hasLast with
  | nil => simp [encode, afterAll]
  | cons a ms ih => simp [encode, afterAll, ih, List.append_assoc]

end Running

def InRange (x : Int) : Prop := 0 ≤ x ∧ x < 2 ^ 30

instance (x : Int) : Decidable (InRange x) := inferInstanceAs (Decidable (_ ∧ _))

/-- A mapping with either all source fields or none, and a name only with a source. -/
def Mapping.Complete (m : Mapping) : Prop :=
  InRange m.generatedLine ∧ InRange m.generatedCharacter ∧
  (m.sourceIndex = missingSource → m.sourceLine = missingLineOrColumn ∧
    m.sourceCharacter = missingLineOrColumn ∧ m.nameIndex = missingName) ∧
  (m.sourceIndex ≠ missingSource → InRange m.sourceIndex ∧ InRange m.sourceLine ∧
    InRange m.sourceCharacter) ∧
  (m.nameIndex ≠ missingName → InRange m.nameIndex)

structure Running.Ranged (r : Running) : Prop where
  line : InRange r.line
  character : InRange r.character
  sourceIndex : InRange r.sourceIndex
  sourceLine : InRange r.sourceLine
  sourceCharacter : InRange r.sourceCharacter
  nameIndex : InRange r.nameIndex

theorem Running.start_ranged : Running.start.Ranged := by
  have zero : InRange 0 := ⟨le_refl _, by norm_num⟩
  exact ⟨zero, zero, zero, zero, zero, zero⟩

def Encodable (r : Running) : List Mapping → Prop
  | [] => True
  | m :: ms => m.Complete ∧ r.line ≤ m.generatedLine ∧ Encodable (r.after m) ms

theorem encodable_append {ms : List Mapping}
    (h : Encodable r ms) (complete : m.Complete) (forward : (r.afterAll ms).line ≤ m.generatedLine) :
    Encodable r (ms ++ [m]) := by
  induction ms generalizing r with
  | nil => exact ⟨complete, forward, trivial⟩
  | cons a ms ih => exact ⟨h.1, h.2.1, ih h.2.2 forward⟩

theorem ranged_atLine (h : r.Ranged) {line : Int} (hl : InRange line) : (r.atLine line).Ranged := by
  unfold Running.atLine
  split
  · exact { h with line := hl, character := ⟨le_refl _, by norm_num⟩ }
  · exact h

theorem ranged_after (h : r.Ranged) (complete : m.Complete) : (r.after m).Ranged := by
  obtain ⟨hl, hc, _, source, name⟩ := complete
  unfold Running.after
  split
  · exact { h with line := hl, character := hc }
  rename_i hs
  obtain ⟨hi, hsl, hsc⟩ := source hs
  refine ⟨hl, hc, hi, hsl, hsc, ?_⟩
  dsimp only
  split
  · exact h.nameIndex
  · rename_i hn
    exact name hn

end TypeScriptRs.SourceMap
