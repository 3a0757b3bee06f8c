import TypeScriptRs.Lib.Utf8

/-! The UTF-8 bytes of a text, and the text of bytes that may be no UTF-8. -/
namespace Utf8
open List

def encoded (text : Text) : List UInt8 := text.flatMap String.utf8EncodeChar

@[simp] theorem encoded_nil : encoded [] = [] := rfl

@[simp] theorem encoded_cons (c : Char) (text : Text) : encoded (c :: text) = String.utf8EncodeChar c ++ encoded text := rfl

theorem encoded_append (a b : Text) : encoded (a ++ b) = encoded a ++ encoded b := flatMap_append

theorem utf8EncodeChar_ascii {c : Char} (ascii : c.toNat < 128) : String.utf8EncodeChar c = [UInt8.ofNat c.toNat] := by
  have small : c.val.toNat ≤ 127 := by
    change c.toNat ≤ 127
    omega
  unfold String.utf8EncodeChar
  exact if_pos small

theorem length_encoded (text : Text) : (encoded text).length = bytes text := by
  induction text with
  | nil => rfl
  | cons c text ih => rw [encoded_cons, length_append, String.length_utf8EncodeChar, ih, bytes_cons]

/-- The least second byte after a first byte, and the greatest one. -/
def secondRange (first : UInt8) : UInt8 × UInt8 :=
  if first = 0xE0 then (0xA0, 0xBF)
  else if first = 0xED then (0x80, 0x9F)
  else if first = 0xF0 then (0x90, 0xBF)
  else if first = 0xF4 then (0x80, 0x8F)
  else (0x80, 0xBF)

def isContinuation (b : UInt8) : Bool := 0x80 ≤ b && b ≤ 0xBF

/-- How many bytes a sequence that starts well has before it goes wrong. -/
def malformed : List UInt8 → Nat
  | first :: second :: rest =>
    let (least, greatest) := secondRange first
    if first < 0xE0 || 0xF4 < first || second < least || greatest < second then 1
    else
      match rest with
      | third :: _ => if first < 0xF0 || !isContinuation third then 2 else 3
      | [] => 2
  | _ => 1

/-- The text of bytes; what is no UTF-8 turns into replacement characters. -/
def fromUtf8Lossy (bytes : List UInt8) : Text :=
  match bytes with
  | [] => []
  | b :: rest =>
    match (b :: rest).toByteArray.utf8DecodeChar? 0 with
    | some c => c :: fromUtf8Lossy ((b :: rest).drop c.utf8Size)
    | none => Char.ofNat 0xFFFD :: fromUtf8Lossy ((b :: rest).drop (max 1 (malformed (b :: rest))))
  termination_by bytes.length
  decreasing_by
    · have size := c.utf8Size_pos
      simp only [length_drop, length_cons]
      omega
    · simp only [length_drop, length_cons]
      omega

theorem fromUtf8Lossy_nil : fromUtf8Lossy [] = [] := by rw [fromUtf8Lossy]

theorem fromUtf8Lossy_char (c : Char) (rest : List UInt8) :
    fromUtf8Lossy (String.utf8EncodeChar c ++ rest) = c :: fromUtf8Lossy rest := by
  have size := String.length_utf8EncodeChar c
  have decodes : (String.utf8EncodeChar c ++ rest).toByteArray.utf8DecodeChar? 0 = some c := by
    rw [toByteArray_append]
    exact ByteArray.utf8DecodeChar?_utf8EncodeChar_append
  have left : (String.utf8EncodeChar c ++ rest).drop c.utf8Size = rest := by
    rw [← size, drop_left]
  have some_ : String.utf8EncodeChar c ++ rest ≠ [] := by
    intro none
    have length := congrArg List.length none
    have positive := c.utf8Size_pos
    rw [length_append, size, length_nil] at length
    omega
  generalize String.utf8EncodeChar c ++ rest = bytes at decodes left some_
  cases bytes with
  | nil => exact absurd rfl some_
  | cons b bytes =>
    rw [fromUtf8Lossy, decodes]
    dsimp only
    rw [left]

theorem fromUtf8Lossy_encoded (text : Text) : fromUtf8Lossy (encoded text) = text := by
  induction text with
  | nil => exact fromUtf8Lossy_nil
  | cons c text ih => rw [encoded_cons, fromUtf8Lossy_char, ih]

end Utf8
