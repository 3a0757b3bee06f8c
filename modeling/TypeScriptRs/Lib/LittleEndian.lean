import Mathlib.Algebra.Group.Nat.Defs
import Mathlib.Data.List.Basic

/-! 32-bit little-endian words in a list of bytes. -/
namespace LittleEndian

def leBytes (n : Nat) : List UInt8 :=
  [UInt8.ofNat n, UInt8.ofNat (n / 256), UInt8.ofNat (n / 65536), UInt8.ofNat (n / 16777216)]

def readLe32 (data : List UInt8) (offset : Nat) : Nat :=
  match data.drop offset with
  | a :: b :: c :: d :: _ => a.toNat + 256 * b.toNat + 65536 * c.toNat + 16777216 * d.toNat
  | _ => 0

def words (values : List Nat) : List UInt8 := values.flatMap leBytes

def writeLe32 (data : List UInt8) (offset value : Nat) : Option (List UInt8) :=
  if offset + 4 ≤ data.length then some (data.take offset ++ leBytes value ++ data.drop (offset + 4)) else none

@[simp] theorem length_leBytes (n : Nat) : (leBytes n).length = 4 := rfl

@[simp] theorem length_words (values : List Nat) : (words values).length = 4 * values.length := by
  induction values with
  | nil => rfl
  | cons value values ih =>
    rw [words, List.flatMap_cons, List.length_append, ← words, ih, length_leBytes, List.length_cons]
    omega

@[simp] theorem words_append (front back : List Nat) : words (front ++ back) = words front ++ words back :=
  List.flatMap_append

theorem writeLe32_eq_some {data written : List UInt8} {offset value : Nat} (ok : writeLe32 data offset value = some written) :
    offset + 4 ≤ data.length ∧ written = data.take offset ++ leBytes value ++ data.drop (offset + 4) := by
  unfold writeLe32 at ok
  split at ok
  · rename_i inside
    cases ok
    exact ⟨inside, rfl⟩
  · cases ok

theorem length_writeLe32 {data written : List UInt8} {offset value : Nat} (ok : writeLe32 data offset value = some written) :
    written.length = data.length := by
  obtain ⟨inside, rfl⟩ := writeLe32_eq_some ok
  simp only [List.length_append, List.length_take, List.length_drop, length_leBytes]
  omega

theorem take_writeLe32 {data written : List UInt8} {offset value n : Nat} (ok : writeLe32 data offset value = some written)
    (before : n ≤ offset) : written.take n = data.take n := by
  obtain ⟨inside, rfl⟩ := writeLe32_eq_some ok
  have length : (data.take offset).length = offset := List.length_take_of_le (by omega)
  rw [List.append_assoc, List.take_append_of_le_length (by omega), List.take_take, Nat.min_eq_left before]

theorem readLe32_append (front : List UInt8) (n : Nat) (rest : List UInt8) :
    readLe32 (front ++ (leBytes n ++ rest)) front.length = n % 2 ^ 32 := by
  have bytes : n % 256 + 256 * (n / 256 % 256) + 65536 * (n / 65536 % 256) + 16777216 * (n / 16777216 % 256) =
      n % 2 ^ 32 := by omega
  simp only [readLe32, List.drop_left, leBytes, List.cons_append, UInt8.toNat_ofNat']
  exact bytes

theorem readLe32_words (front rest : List UInt8) (values : List Nat) {i n : Nat} (at_ : values[i]? = some n) :
    readLe32 (front ++ (words values ++ rest)) (front.length + 4 * i) = n % 2 ^ 32 := by
  obtain ⟨before, after, rfl, rfl⟩ : ∃ before after, values = before ++ n :: after ∧ before.length = i := by
    obtain ⟨inside, here⟩ := List.getElem?_eq_some_iff.mp at_
    refine ⟨values.take i, values.drop (i + 1), ?_, List.length_take_of_le (Nat.le_of_lt inside)⟩
    rw [← here, List.getElem_cons_drop, List.take_append_drop]
  have whole : front ++ (words (before ++ n :: after) ++ rest) =
      (front ++ words before) ++ (leBytes n ++ (words after ++ rest)) := by
    simp [words]
  have length : front.length + 4 * before.length = (front ++ words before).length := by simp
  rw [whole, length, readLe32_append]

theorem writeLe32_words (front values : List Nat) (old value : Nat) :
    writeLe32 (words (front ++ old :: values)) (4 * front.length) value = some (words (front ++ value :: values)) := by
  have inside : 4 * front.length + 4 ≤ (words (front ++ old :: values)).length := by simp <;> omega
  have skip : (words front ++ (leBytes old ++ words values)).drop (4 * front.length + 4) = words values := by
    rw [← List.append_assoc]
    exact List.drop_left' (by simp)
  have split (v : Nat) : words (front ++ v :: values) = words front ++ (leBytes v ++ words values) := by simp [words]
  rw [writeLe32, if_pos inside, split, split, skip, List.take_left' (by simp)]
  simp

end LittleEndian
