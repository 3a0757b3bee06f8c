import TypeScriptRs.Wire.MessagePack

/-! The identifiers of JSON-RPC messages, read from JSON and written again. -/
namespace TypeScriptRs.Wire

/-- A JSON value in the place of an identifier, as far as a visitor can look into it. -/
inductive IdValue where
  | null
  | boolean (value : Bool)
  | integer (value : Int)
  | float
  | string (value : String)
  | array
  | object
  deriving DecidableEq

namespace Id

variable {v : IdValue} {id : Id}

def newInt (i : Int) : Id := ⟨"", i⟩

def expecting : String := "a JSON-RPC string or integer id"

/-- `i32::try_from` -/
def i32TryFrom (v : Int) : Option Int := if -2 ^ 31 ≤ v ∧ v < 2 ^ 31 then some v else none

def visitI64 (v : Int) : Except String Id :=
  match i32TryFrom v with
  | some i => .ok (newInt i)
  | none => .error "integer id out of int32 range"

def visitU64 (v : Int) : Except String Id :=
  match i32TryFrom v with
  | some i => .ok (newInt i)
  | none => .error "integer id out of int32 range"

def visitString (v : String) : Except String Id := .ok (newString v)

def visitUnit : Except String Id := .ok (newInt 0)

def invalidType : Except String Id := .error ("invalid type, expected " ++ expecting)

/-- `deserialize_any`. An integer that no machine word holds is a float. -/
def deserialize : IdValue → Except String Id
  | .null => visitUnit
  | .integer v =>
    if 0 ≤ v then if v < 2 ^ 64 then visitU64 v else invalidType
    else if -2 ^ 63 ≤ v then visitI64 v else invalidType
  | .string v => visitString v
  | .boolean _ | .float | .array | .object => invalidType

def serialize (id : Id) : IdValue := if id.str ≠ "" then .string id.str else .integer id.int

theorem deserialize_integer (v : Int) (id : Id) :
    deserialize (.integer v) = .ok id ↔ (-2 ^ 31 ≤ v ∧ v < 2 ^ 31) ∧ newInt v = id := by
  by_cases fits : -2 ^ 31 ≤ v ∧ v < 2 ^ 31
  · have low : -2 ^ 63 ≤ v := by omega
    have high : v < 2 ^ 64 := by omega
    have accepted : deserialize (.integer v) = .ok (newInt v) := by
      simp only [deserialize, visitU64, visitI64, i32TryFrom, if_pos fits, if_pos low, if_pos high, ite_self]
    rw [accepted, and_iff_right fits, Except.ok.injEq]
  have rejected : deserialize (.integer v) = .error "integer id out of int32 range" ∨ deserialize (.integer v) = invalidType := by
    simp only [deserialize, visitU64, visitI64, i32TryFrom, if_neg fits]
    split <;> split <;> simp
  refine iff_of_false (fun ok => ?_) fun accepted => fits accepted.1
  rcases rejected with error | error <;> cases error.symm.trans ok

theorem deserialize_ok (ok : deserialize v = .ok id) :
    (v = .null ∧ id = newInt 0) ∨ (∃ i, v = .integer i ∧ id = newInt i) ∨ ∃ s, v = .string s ∧ id = newString s := by
  cases v with
  | null => exact .inl ⟨rfl, (Except.ok.inj ok).symm⟩
  | integer i => exact .inr (.inl ⟨i, rfl, ((deserialize_integer i id).mp ok).2.symm⟩)
  | string s => exact .inr (.inr ⟨s, rfl, (Except.ok.inj ok).symm⟩)
  | boolean _ | float | array | object => cases ok

def ReadAsZero (v : IdValue) : Prop := v = .null ∨ v = .string "" ∨ v = .integer 0

theorem serialize_of_deserialize (ok : deserialize v = .ok id) : id.serialize = v ↔ v ≠ .null ∧ v ≠ .string "" := by
  rcases deserialize_ok ok with ⟨rfl, rfl⟩ | ⟨i, rfl, rfl⟩ | ⟨s, rfl, rfl⟩
  · simp [serialize, newInt]
  · simp [serialize, newInt]
  · by_cases empty : s = "" <;> simp [serialize, newString, empty]

theorem eq_newInt_zero_iff (ok : deserialize v = .ok id) : id = newInt 0 ↔ ReadAsZero v := by
  rcases deserialize_ok ok with ⟨rfl, rfl⟩ | ⟨i, rfl, rfl⟩ | ⟨s, rfl, rfl⟩ <;> simp [ReadAsZero, newInt, newString]

/-- Values are preserved but for `null` and the empty string, and two of them stay apart unless both are read as 0. -/
theorem ids_preserved_iff {v w : IdValue} {a b : Id} (first : deserialize v = .ok a) (second : deserialize w = .ok b) :
    (a.serialize = v ↔ v ≠ .null ∧ v ≠ .string "") ∧ (v ≠ w → (a ≠ b ↔ ¬ (ReadAsZero v ∧ ReadAsZero w))) := by
  refine ⟨serialize_of_deserialize first, fun differ => not_congr ⟨fun same => ?_, fun zeros => ?_⟩⟩
  · subst same
    have zero : a = newInt 0 := by
      -- two values that are both written back as they were would be the same value
      by_contra other
      have plain : ∀ {u}, deserialize u = .ok a → a.serialize = u := by
        intro u ok
        have read := (not_congr (eq_newInt_zero_iff ok)).mp other
        exact (serialize_of_deserialize ok).mpr ⟨fun null => read (.inl null), fun empty => read (.inr (.inl empty))⟩
      exact differ ((plain first).symm.trans (plain second))
    exact ⟨(eq_newInt_zero_iff first).mp zero, (eq_newInt_zero_iff second).mp zero⟩
  · rw [(eq_newInt_zero_iff first).mpr zeros.1, (eq_newInt_zero_iff second).mpr zeros.2]

theorem ids_preserved_iff_seven :
    ((newInt 7).serialize = .integer 7 ↔ IdValue.integer 7 ≠ .null ∧ IdValue.integer 7 ≠ .string "") ∧
    (IdValue.integer 7 ≠ .string "7" →
      (newInt 7 ≠ newString "7" ↔ ¬ (ReadAsZero (.integer 7) ∧ ReadAsZero (.string "7")))) :=
  ids_preserved_iff rfl rfl

/-- The empty string and 0 are one key, and an answer to either has the identifier 0. -/
theorem emptyString_readAsZero :
    deserialize (.string "") = .ok (newInt 0) ∧ deserialize (.integer 0) = .ok (newInt 0) ∧
    deserialize .null = .ok (newInt 0) ∧ (newInt 0).serialize = .integer 0 := by
  refine ⟨rfl, rfl, rfl, rfl⟩

end Id

end TypeScriptRs.Wire
