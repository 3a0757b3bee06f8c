import TypeScriptRs.Lib.Decimal
import TypeScriptRs.Lib.Machine
import TypeScriptRs.Lib.Utf8

/-! The texts of big integer literals, and the decimal texts of their values. -/
namespace TypeScriptRs.Jsnum
open Machine Utf8 Decimal List

def digitChar (d : Nat) : Char := Char.ofNat (48 + d)

structure PseudoBigInt where
  negative : Bool
  base10Value : Text

def newPseudoBigInt (value : Text) (negative : Bool) : PseudoBigInt :=
  let value := value.dropWhile (· = '0')
  ⟨negative && !value.isEmpty, value⟩

def PseudoBigInt.fmt (n : PseudoBigInt) : Text :=
  if n.base10Value = [] then ['0'] else if n.negative then '-' :: n.base10Value else n.base10Value

def u32 (n : Nat) : Outcome Nat := if n < 2 ^ 32 then .ok n else .panic "attempt to add or multiply with overflow"

def digitOfByte (byte : Char) : Outcome Nat :=
  if 48 ≤ byte.toNat then .ok (byte.toNat - 48) else .panic "attempt to subtract with overflow"

def mulSmallAddLoop (mul : Nat) : Text → Nat → Outcome (Text × Nat)
  | [], carry => .ok ([], carry)
  | byte :: rest, carry => do
    let digit ← digitOfByte byte
    let product ← u32 (digit * mul)
    let value ← u32 (product + carry)
    let (out, carry) ← mulSmallAddLoop mul rest (value / 10)
    pure (digitChar (value % 10) :: out, carry)

def decimalMulSmallAdd (decimal : Text) (mul add : Nat) : Outcome Text := do
  let (out, carry) ← mulSmallAddLoop mul decimal.reverse add
  let trimmed := (out ++ (Nat.digits 10 carry).map digitChar).reverse.dropWhile (· = '0')
  pure (if trimmed = [] then ['0'] else trimmed)

def toDigit (c : Char) (radix : Nat) : Option Nat :=
  let digit := if c.isDigit then c.toNat - 48 else if c.isLower then c.toNat - 87 else if c.isUpper then c.toNat - 55 else radix
  if digit < radix then some digit else none

def prefixedLoop (base : Nat) : Text → Text → Outcome (Option Text)
  | [], decimal => .ok (some decimal)
  | ch :: rest, decimal =>
    if ch = '_' then prefixedLoop base rest decimal
    else
      match toDigit ch base with
      | none => .ok none
      | some digit => do
        let decimal ← decimalMulSmallAdd decimal base digit
        prefixedLoop base rest decimal

def baseOfMark (mark : Char) : Option Nat :=
  if mark = 'b' ∨ mark = 'B' then some 2 else if mark = 'o' ∨ mark = 'O' then some 8
  else if mark = 'x' ∨ mark = 'X' then some 16 else none

def parsePrefixedIntegerToDecimal : Text → Outcome (Option Text)
  | '0' :: mark :: digits =>
    match baseOfMark mark with
    | none => .ok none
    | some base => prefixedLoop base digits ['0']
  | _ => .ok none

def hasMark : Text → Bool
  | first :: mark :: _ => first.utf8Size = 1 && (baseOfMark mark).isSome
  | _ => false

def stripSuffix (text : Text) : Text := if text.getLast? = some 'n' then text.dropLast else text

def parsePseudoBigInt (stringValue : Text) : Outcome Text :=
  let stringValue := stripSuffix stringValue
  if hasMark stringValue then do
    match ← parsePrefixedIntegerToDecimal stringValue with
    | some decimal => pure decimal
    | none => .panic "Failed to parse big int"
  else
    let stringValue := stringValue.dropWhile (· = '0')
    .ok (if stringValue = [] then ['0'] else stringValue)

def parseValidBigInt (text : Text) : Outcome PseudoBigInt :=
  let (text, negative) := if text.head? = some '-' then (text.tail, true) else (text, false)
  (parsePseudoBigInt text).bind fun value => .ok (newPseudoBigInt value negative)

inductive IsBigIntLiteral : Text → Nat → Prop
  | decimal {digits : List Nat} : (∀ d ∈ digits, d < 10) → IsBigIntLiteral (digits.map digitChar ++ ['n']) (valueOf digits)
  | radix {mark : Char} {base : Nat} {digits : Text} {values : List Nat} : baseOfMark mark = some base →
      digits.mapM (toDigit · base) = some values →
      IsBigIntLiteral ('0' :: mark :: digits ++ ['n']) (values.foldl (fun n d => n * base + d) 0)

def signed (negative : Bool) (text : Text) : Text := if negative then '-' :: text else text

def decimalText (n : Int) : Text := signed (n < 0) ((digitsOf n.natAbs).map digitChar)

section
variable {text decimal : Text} {n mul add base : Nat} {digits : List Nat}

def Shows (text : Text) (n : Nat) : Prop := ∃ digits, (∀ d ∈ digits, d < 10) ∧ text = digits.map digitChar ∧ valueOf digits = n

theorem digitChar_toNat {d : Nat} (small : d < 10) : (digitChar d).toNat = 48 + d := by
  interval_cases d <;> rfl

theorem digitChar_eq_zero_iff {d : Nat} (small : d < 10) : digitChar d = '0' ↔ d = 0 := by
  interval_cases d <;> decide

theorem Shows.trim (shows_ : Shows text n) : text.dropWhile (· = '0') = (Nat.digits 10 n).reverse.map digitChar := by
  obtain ⟨digits, small, rfl, rfl⟩ := shows_
  rw [← dropWhile_zero small, dropWhile_map]
  congr 1
  induction digits with
  | nil => rfl
  | cons d digits ih =>
    obtain ⟨first, rest⟩ := forall_mem_cons.mp small
    rw [dropWhile_cons, dropWhile_cons, Function.comp_apply, ih rest]
    exact if_congr (by simpa using digitChar_eq_zero_iff first) rfl rfl

theorem Shows.orZero (shows_ : Shows text n) :
    Shows (if text.dropWhile (· = '0') = [] then ['0'] else text.dropWhile (· = '0')) n := by
  rw [shows_.trim]
  split
  · rename_i none
    rw [map_eq_nil_iff, reverse_eq_nil_iff, Nat.digits_eq_nil_iff_eq_zero] at none
    exact ⟨[0], by simp, rfl, none.symm⟩
  · refine ⟨_, fun d listed => ?_, rfl, ?_⟩
    · exact Nat.digits_lt_base (by decide) (mem_reverse.mp listed)
    · rw [valueOf_reverse, Nat.ofDigits_digits]

theorem mulSmallAddLoop_ofDigits (narrow : mul ≤ 16) (small : ∀ d ∈ digits, d < 10) {carry : Nat} (low : carry < 16) :
    ∃ out carry', mulSmallAddLoop mul (digits.map digitChar) carry = .ok (out.map digitChar, carry') ∧ (∀ d ∈ out, d < 10) ∧
      Nat.ofDigits 10 (out ++ Nat.digits 10 carry') = Nat.ofDigits 10 digits * mul + carry := by
  induction digits generalizing carry with
  | nil => exact ⟨[], carry, rfl, by simp, by simp [Nat.ofDigits_digits]⟩
  | cons d digits ih =>
    obtain ⟨first, rest⟩ := forall_mem_cons.mp small
    have product : d * mul ≤ 9 * 16 := Nat.mul_le_mul (Nat.le_of_lt_succ first) narrow
    obtain ⟨out, carry', run, digits_, value⟩ := @ih rest ((d * mul + carry) / 10) (by omega)
    refine ⟨(d * mul + carry) % 10 :: out, carry', ?_, forall_mem_cons.mpr ⟨Nat.mod_lt _ (by decide), digits_⟩, ?_⟩
    · have byte : digitOfByte (digitChar d) = .ok d := by
        unfold digitOfByte
        rw [digitChar_toNat first, if_pos (Nat.le_add_right 48 d), Nat.add_sub_cancel_left]
      have fits : u32 (d * mul) = .ok (d * mul) := if_pos (by omega)
      have fits' : u32 (d * mul + carry) = .ok (d * mul + carry) := if_pos (by omega)
      rw [map_cons, mulSmallAddLoop, byte]
      simp only [Outcome.monad_bind, Outcome.bind_ok, fits, fits', run]
      rfl
    · rw [cons_append, Nat.ofDigits_cons, value, Nat.ofDigits_cons, Nat.mul_add, Nat.add_mul]
      rw [Nat.mul_assoc]
      omega

theorem decimalMulSmallAdd_shows (narrow : mul ≤ 16) (low : add < 16) (shows_ : Shows decimal n) :
    ∃ decimal', decimalMulSmallAdd decimal mul add = .ok decimal' ∧ Shows decimal' (n * mul + add) := by
  obtain ⟨digits, small, rfl, rfl⟩ := shows_
  obtain ⟨out, carry, run, small', value⟩ :=
    @mulSmallAddLoop_ofDigits mul digits.reverse narrow (fun d listed => small d (mem_reverse.mp listed)) add low
  have whole : Shows ((out.map digitChar ++ (Nat.digits 10 carry).map digitChar).reverse) (valueOf digits * mul + add) := by
    refine ⟨(out ++ Nat.digits 10 carry).reverse, fun d listed => ?_, by simp, ?_⟩
    · rcases mem_append.mp (mem_reverse.mp listed) with here | here
      · exact small' d here
      · exact Nat.digits_lt_base (by decide) here
    · rw [valueOf_reverse, value, ← valueOf_reverse, reverse_reverse]
  refine ⟨_, ?_, whole.orZero⟩
  unfold decimalMulSmallAdd
  rw [← map_reverse, run]
  rfl

theorem toDigit_lt {c : Char} {d : Nat} (digit : toDigit c base = some d) : d < base := by
  unfold toDigit at digit
  generalize (if c.isDigit then c.toNat - 48 else if c.isLower then c.toNat - 87 else if c.isUpper then c.toNat - 55 else base) = value
    at digit
  by_cases below : value < base
  · rw [if_pos below] at digit
    exact Option.some.inj digit ▸ below
  · rw [if_neg below] at digit
    cases digit

theorem prefixedLoop_shows (narrow : base ≤ 16) {values : List Nat} (read : text.mapM (toDigit · base) = some values)
    (shows_ : Shows decimal n) : ∃ decimal', prefixedLoop base text decimal = .ok (some decimal') ∧
      Shows decimal' (values.foldl (fun n d => n * base + d) n) := by
  induction text generalizing values decimal n with
  | nil =>
    cases read
    exact ⟨decimal, rfl, shows_⟩
  | cons ch text ih =>
    rw [mapM_cons] at read
    obtain ⟨d, digit, read⟩ := Option.bind_eq_some_iff.mp read
    obtain ⟨values, later, same⟩ := Option.bind_eq_some_iff.mp read
    cases same
    have below := toDigit_lt digit
    obtain ⟨decimal₁, run, shows₁⟩ := decimalMulSmallAdd_shows narrow (Nat.lt_of_lt_of_le below narrow) shows_
    obtain ⟨decimal', rest, shows'⟩ := ih later shows₁
    have separator : ch ≠ '_' := by
      rintro rfl
      exact absurd digit (by simp [toDigit])
    refine ⟨decimal', ?_, shows'⟩
    rw [prefixedLoop, if_neg separator, digit]
    dsimp only
    rw [run]
    exact rest
end

section
variable {text : Text} {n : Nat}

theorem IsBigIntLiteral.unsigned (literal : IsBigIntLiteral text n) : text.head? ≠ some '-' := by
  cases literal with
  | @decimal digits small =>
    cases digits with
    | nil => decide
    | cons d digits =>
      have digit : d < 10 := small d (by simp)
      have plain : digitChar d ≠ '-' := by interval_cases d <;> decide
      simpa using plain
  | radix => simp

theorem baseOfMark_le {mark : Char} {base : Nat} (known : baseOfMark mark = some base) : base ≤ 16 := by
  unfold baseOfMark at known
  repeat' split at known
  all_goals cases known
  all_goals decide

theorem hasMark_digits {digits : List Nat} (small : ∀ d ∈ digits, d < 10) : hasMark (digits.map digitChar) = false := by
  cases digits with
  | nil => rfl
  | cons d digits =>
    cases digits with
    | nil => rfl
    | cons e digits =>
      have digit : e < 10 := small e (by simp)
      have unmarked : baseOfMark (digitChar e) = none := by interval_cases e <;> rfl
      simp [hasMark, unmarked]

theorem parsePseudoBigInt_shows (literal : IsBigIntLiteral text n) : ∃ value, parsePseudoBigInt text = .ok value ∧ Shows value n := by
  unfold parsePseudoBigInt stripSuffix
  cases literal with
  | @decimal digits small =>
    have shows_ : Shows (digits.map digitChar) (valueOf digits) := ⟨digits, small, rfl, rfl⟩
    refine ⟨_, ?_, shows_.orZero⟩
    rw [List.getLast?_concat, if_pos rfl, dropLast_concat]
    dsimp only
    rw [hasMark_digits small]
    rfl
  | @radix mark base digits values known read =>
    have zero : Shows ['0'] 0 := ⟨[0], by simp, rfl, rfl⟩
    obtain ⟨value, run, shows_⟩ := prefixedLoop_shows (baseOfMark_le known) read zero
    refine ⟨value, ?_, shows_⟩
    have marked : hasMark ('0' :: mark :: digits) = true := by
      change (decide ('0'.utf8Size = 1) && (baseOfMark mark).isSome) = true
      rw [known]
      rfl
    rw [List.getLast?_concat, if_pos rfl, dropLast_concat]
    rw [if_pos marked, parsePrefixedIntegerToDecimal, known]
    dsimp only
    rw [run]
    rfl

theorem newPseudoBigInt_fmt (shows_ : Shows text n) (negative : Bool) :
    (newPseudoBigInt text negative).fmt = decimalText (if negative then -n else n) := by
  have trimmed := shows_.trim
  unfold newPseudoBigInt PseudoBigInt.fmt decimalText
  rw [trimmed]
  by_cases zero : n = 0
  · subst zero
    cases negative <;> rfl
  · have whole : digitsOf n = (Nat.digits 10 n).reverse := if_neg zero
    have some_ : (digitsOf n).map digitChar ≠ [] := fun none => digitsOf_ne_nil n (map_eq_nil_iff.mp none)
    rw [← whole, if_neg some_]
    cases negative with
    | false => simp [signed]
    | true =>
      simp [signed, digitsOf_ne_nil, Nat.pos_of_ne_zero zero]
end

theorem bigIntLiteral_exact {text : Text} {n : Nat} (literal : IsBigIntLiteral text n) (negative : Bool) :
    ∃ value, parseValidBigInt (signed negative text) = .ok value ∧ value.fmt = decimalText (if negative then -n else n) := by
  obtain ⟨digits, read, shows_⟩ := parsePseudoBigInt_shows literal
  refine ⟨_, ?_, newPseudoBigInt_fmt shows_ negative⟩
  cases negative with
  | true =>
    change (parsePseudoBigInt text).bind _ = _
    rw [read]
    rfl
  | false =>
    have unsigned : (if text.head? = some '-' then (text.tail, true) else (text, false)) = (text, false) := if_neg literal.unsigned
    change ((if text.head? = some '-' then (text.tail, true) else (text, false)) |> fun read =>
      (parsePseudoBigInt read.1).bind fun value => .ok (newPseudoBigInt value read.2)) = _
    rw [unsigned]
    dsimp only
    rw [read]
    rfl

theorem bigIntLiteral_exact_hexadecimal :
    ∃ value, parseValidBigInt "-0xfFn".toList = .ok value ∧ value.fmt = "-255".toList := by
  have literal : IsBigIntLiteral "0xfFn".toList 255 := @IsBigIntLiteral.radix 'x' 16 ['f', 'F'] [15, 15] rfl rfl
  obtain ⟨value, read, shown⟩ := bigIntLiteral_exact literal true
  exact ⟨value, read, shown.trans (by decide)⟩

end TypeScriptRs.Jsnum
