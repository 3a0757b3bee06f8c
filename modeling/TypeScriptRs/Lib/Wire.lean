import Mathlib.Data.Rat.Floor

/-! Values in a JSON text, and codecs into them, which leave out default values. -/
namespace Wire
open List

inductive Value where
  | null
  | bool (value : Bool)
  | integer (value : Int)
  | float (value : Rat)
  | string (value : String)
  | array (values : List Value)
  | object (entries : List (String × Value))

structure Codec (α : Type) where
  encode : α → Value
  decode : Value → Option α

variable {α β : Type}

def Codec.Keeps (codec : Codec α) (a : α) : Prop := codec.decode (codec.encode a) = some a

namespace Codec

def value : Codec Value := ⟨id, some⟩

def bool : Codec Bool where
  encode := .bool
  decode
    | .bool value => some value
    | _ => none

def string : Codec String where
  encode := .string
  decode
    | .string value => some value
    | _ => none

def int32 : Codec Int32 where
  encode value := .integer value.toInt
  decode
    | .integer value => if -2 ^ 31 ≤ value ∧ value < 2 ^ 31 then some (Int32.ofInt value) else none
    | _ => none

def list (codec : Codec α) : Codec (List α) where
  encode values := .array (values.map codec.encode)
  decode
    | .array values => values.mapM codec.decode
    | _ => none

def pair (first : Codec α) (second : Codec β) : Codec (α × β) where
  encode values := .array [first.encode values.1, second.encode values.2]
  decode
    | .array [a, b] => do pure (← first.decode a, ← second.decode b)
    | _ => none

@[simp] theorem keeps_bool (b : Bool) : bool.Keeps b := rfl

@[simp] theorem keeps_string (s : String) : string.Keeps s := rfl

@[simp] theorem keeps_int32 (n : Int32) : int32.Keeps n := by
  have low := n.le_toInt
  have high := n.toInt_lt
  unfold Keeps int32
  simp only
  rw [if_pos ⟨low, high⟩, Int32.ofInt_toInt]

theorem keeps_list {codec : Codec α} {values : List α} (each : ∀ a ∈ values, codec.Keeps a) : (list codec).Keeps values := by
  unfold Keeps list
  simp only
  induction values with
  | nil => rfl
  | cons a values ih =>
    have first : codec.decode (codec.encode a) = some a := each a mem_cons_self
    have rest := ih fun a member => each a (mem_cons_of_mem _ member)
    rw [map_cons, mapM_cons, first, rest]
    rfl

theorem keeps_pair {first : Codec α} {second : Codec β} {a : α} {b : β} (keepsFirst : first.Keeps a) (keepsSecond : second.Keeps b) :
    (pair first second).Keeps (a, b) := by
  have firstKept : first.decode (first.encode a) = some a := keepsFirst
  have secondKept : second.decode (second.encode b) = some b := keepsSecond
  unfold Keeps pair
  simp only [firstKept, secondKept]
  rfl

end Codec

variable {codec : Codec α} {default : α}

def field (key : String) (leftOut : Bool) (value : Value) : List (String × Value) := if leftOut then [] else [(key, value)]

def isDefault (n : Int32) : Bool := n = 0

def record (fields : List (List (String × Value))) : List (String × Value) := fields.flatten

def find (key : String) : List (String × Value) → Option Value
  | [] => none
  | (other, value) :: entries => if other = key then some value else find key entries

def fieldOr (codec : Codec α) (default : α) (key : String) (entries : List (String × Value)) : Option α :=
  match find key entries with
  | some value => codec.decode value
  | none => some default

variable {key other : String} {leftOut : Bool} {value : Value} {fields : List (List (String × Value))}

@[simp] theorem find_record_nil : find key (record []) = none := by
  rw [record, flatten_nil, find]

theorem find_record_ne (different : other ≠ key) :
    find key (record (field other leftOut value :: fields)) = find key (record fields) := by
  unfold record field
  split
  · rfl
  · exact if_neg different

theorem find_record : find key (record (field key leftOut value :: fields)) = if leftOut then find key (record fields) else some value := by
  unfold record field
  split
  · rfl
  · exact if_pos rfl

theorem fieldOr_record_nil : fieldOr codec default key (record []) = some default := by
  rw [fieldOr, find_record_nil]

theorem fieldOr_record_ne (different : other ≠ key) :
    fieldOr codec default key (record (field other leftOut value :: fields)) = fieldOr codec default key (record fields) := by
  unfold fieldOr
  rw [find_record_ne different]

theorem fieldOr_record {a : α} (keeps : codec.Keeps a) (out : leftOut = true → a = default)
    (absent : find key (record fields) = none) :
    fieldOr codec default key (record (field key leftOut (codec.encode a) :: fields)) = some a := by
  unfold fieldOr
  rw [find_record, absent]
  cases leftOut with
  | true => exact congrArg some (out rfl).symm
  | false => exact keeps

section
variable (absent : find key (record fields) = none)
include absent

theorem fieldOr_string {text : String} :
    fieldOr .string "" key (record (field key (text = "") (Codec.string.encode text) :: fields)) = some text :=
  fieldOr_record (Codec.keeps_string text) of_decide_eq_true absent

theorem fieldOr_int32 {n : Int32} :
    fieldOr .int32 0 key (record (field key (isDefault n) (Codec.int32.encode n) :: fields)) = some n :=
  fieldOr_record (Codec.keeps_int32 n) of_decide_eq_true absent

theorem fieldOr_bool {b : Bool} : fieldOr .bool false key (record (field key (!b) (Codec.bool.encode b) :: fields)) = some b :=
  fieldOr_record (Codec.keeps_bool b) (fun out => by simpa using out) absent
end

theorem fieldOr_list {codec : Codec (List α)} {values : List α} (keeps : codec.Keeps values) (absent : find key (record fields) = none) :
    fieldOr codec [] key (record (field key values.isEmpty (codec.encode values) :: fields)) = some values :=
  fieldOr_record keeps isEmpty_iff.mp absent

end Wire
