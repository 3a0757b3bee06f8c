import TypeScriptRs.Lib.Utf8

/-! Texts as UTF-16 code units, and which of these are a text. -/
namespace Utf16
open Utf8 List

def isHighSurrogate (unit : Nat) : Bool := 0xD800 ≤ unit && unit ≤ 0xDBFF

def isLowSurrogate (unit : Nat) : Bool := 0xDC00 ≤ unit && unit ≤ 0xDFFF

def pair (high low : Nat) : Nat := (high - 0xD800) * 0x400 + (low - 0xDC00) + 0x10000

def unitsOf (code : Nat) : List Nat :=
  if code < 0x10000 then [code] else [0xD800 + (code - 0x10000) / 0x400, 0xDC00 + (code - 0x10000) % 0x400]

def encode (text : Text) : List Nat := text.flatMap fun c => unitsOf c.toNat

def decode : List Nat → Option Text
  | [] => some []
  | [unit] => if isHighSurrogate unit || isLowSurrogate unit then none else some [Char.ofNat unit]
  | unit :: next :: units =>
    if isHighSurrogate unit && isLowSurrogate next then (decode units).map (Char.ofNat (pair unit next) :: ·)
    else if isHighSurrogate unit || isLowSurrogate unit then none
    else (decode (next :: units)).map (Char.ofNat unit :: ·)

variable {unit : Nat} {units : List Nat} {text : Text}

theorem isLowSurrogate_iff : isLowSurrogate unit = true ↔ 0xDC00 ≤ unit ∧ unit ≤ 0xDFFF := by
  unfold isLowSurrogate
  simp

theorem isHighSurrogate_iff : isHighSurrogate unit = true ↔ 0xD800 ≤ unit ∧ unit ≤ 0xDBFF := by
  unfold isHighSurrogate
  simp

theorem not_surrogate (c : Char) : isHighSurrogate c.toNat = false ∧ isLowSurrogate c.toNat = false := by
  have valid : c.toNat < 0xD800 ∨ 0xDFFF < c.toNat ∧ c.toNat < 0x110000 := c.valid
  rw [Bool.eq_false_iff, Bool.eq_false_iff, ne_eq, ne_eq, isHighSurrogate_iff, isLowSurrogate_iff]
  omega

theorem decode_unit (high : isHighSurrogate unit = false) (low : isLowSurrogate unit = false) :
    decode (unit :: units) = (decode units).map (Char.ofNat unit :: ·) := by
  have plain : ¬(isHighSurrogate unit || isLowSurrogate unit) = true := by rw [high, low]; exact Bool.false_ne_true
  cases units with
  | nil => exact if_neg plain
  | cons next units => rw [decode, high, Bool.false_and, if_neg Bool.false_ne_true, Bool.false_or, low, if_neg Bool.false_ne_true]

theorem decode_unitsOf (c : Char) (units : List Nat) : decode (unitsOf c.toNat ++ units) = (decode units).map (c :: ·) := by
  unfold unitsOf
  split
  · obtain ⟨high, low⟩ := not_surrogate c
    rw [cons_append, nil_append, decode_unit high low, Char.ofNat_toNat]
  rename_i large
  have valid : c.toNat < 0xD800 ∨ 0xDFFF < c.toNat ∧ c.toNat < 0x110000 := c.valid
  have high : isHighSurrogate (0xD800 + (c.toNat - 0x10000) / 0x400) = true := by
    rw [isHighSurrogate_iff]
    omega
  have low : isLowSurrogate (0xDC00 + (c.toNat - 0x10000) % 0x400) = true := by
    rw [isLowSurrogate_iff]
    omega
  have same : pair (0xD800 + (c.toNat - 0x10000) / 0x400) (0xDC00 + (c.toNat - 0x10000) % 0x400) = c.toNat := by
    unfold pair
    omega
  rw [cons_append, cons_append, nil_append, decode, high, low, same, Char.ofNat_toNat]
  rfl

theorem encode_cons (c : Char) (text : Text) : encode (c :: text) = unitsOf c.toNat ++ encode text := flatMap_cons

theorem decode_encode_append (text : Text) (units : List Nat) : decode (encode text ++ units) = (decode units).map (text ++ ·) := by
  induction text with
  | nil => exact Option.map_id'.symm
  | cons c text ih =>
    rw [encode_cons, append_assoc, decode_unitsOf, ih, Option.map_map]
    rfl

theorem length_of_decode (read : decode units = some text) : text.length = units.countP fun unit => !isLowSurrogate unit := by
  fun_induction decode units generalizing text with
  | case1 =>
    cases read
    rfl
  | case2 unit surrogate => cases read
  | case3 unit plain =>
    cases read
    rw [Bool.or_eq_true, not_or] at plain
    rw [countP_cons_of_pos (by simp [plain.2])]
    rfl
  | case4 unit next units both ih =>
    obtain ⟨rest, later, rfl⟩ := Option.map_eq_some_iff.mp read
    obtain ⟨high, low⟩ := (Bool.and_eq_true _ _).mp both
    have other : isLowSurrogate unit = false := by
      rw [isHighSurrogate_iff] at high
      rw [Bool.eq_false_iff, ne_eq, isLowSurrogate_iff]
      omega
    rw [countP_cons_of_pos (by simp [other]), countP_cons_of_neg (by simp [low]), length_cons, ih later]
  | case5 unit next units apart surrogate => cases read
  | case6 unit next units apart plain ih =>
    obtain ⟨rest, later, rfl⟩ := Option.map_eq_some_iff.mp read
    rw [Bool.or_eq_true, not_or] at plain
    rw [countP_cons_of_pos (by simp [plain.2]), length_cons, ih later]

theorem low_after_high (read : decode (unit :: units) = some text) (high : isHighSurrogate unit = true) :
    ∃ low ∈ units.head?, isLowSurrogate low = true := by
  cases units with
  | nil =>
    rw [decode, high] at read
    cases read
  | cons next units =>
    refine ⟨next, rfl, ?_⟩
    by_contra other
    rw [decode, high, Bool.eq_false_iff.mpr other] at read
    cases read

end Utf16
