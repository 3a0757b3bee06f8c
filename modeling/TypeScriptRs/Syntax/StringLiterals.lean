import Mathlib.Data.List.TakeWhile
import TypeScriptRs.Lib.Utf16
import TypeScriptRs.Syntax.Scanner

/-! String literals by their grammar, and as the scanner reads them. -/
namespace TypeScriptRs.Syntax
open Utf8 List

def hexNumber (digits : Text) : Nat := digits.foldl (fun n digit => n * 16 + (hexValue digit).getD 0) 0

def IsLineTerminator (c : Char) : Prop := c = '\n' ∨ c = '\r' ∨ c = '\u2028' ∨ c = '\u2029'

instance (c : Char) : Decidable (IsLineTerminator c) := inferInstanceAs (Decidable (_ ∨ _))

def singleEscapeCharacters : List (Char × Char) := ('\\', '\\') :: Scanner.singleEscapes

/-- The characters that stand for themselves when they are escaped. -/
def IsNonEscapeCharacter (c : Char) : Prop :=
  singleEscapeCharacters.lookup c = none ∧ c.isDigit = false ∧ c ≠ 'x' ∧ c ≠ 'u' ∧ ¬IsLineTerminator c

/-- What can come after a backslash, the code units that it stands for, and what comes after it. Octal escapes are errors. -/
inductive IsEscape : Text → List Nat → Text → Prop
  | single {c escaped : Char} {rest : Text} : singleEscapeCharacters.lookup c = some escaped → IsEscape (c :: rest) [escaped.toNat] rest
  | nonEscape {c : Char} {rest : Text} : IsNonEscapeCharacter c → IsEscape (c :: rest) (Utf16.unitsOf c.toNat) rest
  | zero {rest : Text} : rest.head?.any Char.isDigit = false → IsEscape ('0' :: rest) [0] rest
  | hex {digits rest : Text} : digits.length = 2 → (∀ d ∈ digits, isHexDigit d = true) →
    IsEscape ('x' :: (digits ++ rest)) [hexNumber digits] rest
  | unicode {digits rest : Text} : digits.length = 4 → (∀ d ∈ digits, isHexDigit d = true) →
    IsEscape ('u' :: (digits ++ rest)) [hexNumber digits] rest
  | codePoint {digits rest : Text} : digits ≠ [] → (∀ d ∈ digits, isHexDigit d = true) → hexNumber digits ≤ 0x10FFFF →
    IsEscape ('u' :: '\x7b' :: (digits ++ '\x7d' :: rest)) (Utf16.unitsOf (hexNumber digits)) rest
  | lineContinuation {c : Char} {rest : Text} : IsLineTerminator c → ¬(c = '\r' ∧ rest.head? = some '\n') → IsEscape (c :: rest) [] rest
  | lineFeed {rest : Text} : IsEscape ('\r' :: '\n' :: rest) [] rest

/-- What can come after an opening quote, its string value, and what comes after the closing quote. -/
inductive IsStringLiteral (quote : Char) : Text → List Nat → Text → Prop
  | close {rest : Text} : IsStringLiteral quote (quote :: rest) [] rest
  | character {c : Char} {text : Text} {units : List Nat} {rest : Text} : c ≠ quote → c ≠ '\\' → c ≠ '\n' → c ≠ '\r' →
    IsStringLiteral quote text units rest → IsStringLiteral quote (c :: text) (Utf16.unitsOf c.toNat ++ units) rest
  | escape {text more : Text} {units units' : List Nat} {rest : Text} : IsEscape text units more →
    IsStringLiteral quote more units' rest → IsStringLiteral quote ('\\' :: text) (units ++ units') rest

/-- What an escape or a character is read as: as what it stands for; a surrogate by itself; an escaped line or paragraph separator or
next-line character, of whose bytes only the first is taken for a character; an escaped null character, which is taken for the end of
the text; what is reported as an error; and a number that is too large for its register, which is not reported. -/
inductive Reading
  | exact (value : Text)
  | surrogate (unit : Nat)
  | separator
  | nextLine
  | null
  | refused
  | overflow
  deriving DecidableEq

def Reading.units : Reading → List Nat
  | exact value => Utf16.encode value
  | surrogate unit => [unit]
  | nextLine => [0x85]
  | separator | null | refused | overflow => []

def Reading.value : Reading → Text
  | exact value => value
  | surrogate _ => ['\uFFFD']
  | separator => ['\u00e2', '\uFFFD', '\uFFFD']
  | nextLine => ['\u00c2', '\uFFFD']
  | null | refused | overflow => []

def Reading.Quiet (r : Reading) : Prop := r ≠ .null ∧ r ≠ .refused

def Reading.Grammatical (r : Reading) : Prop := r ≠ .refused ∧ r ≠ .overflow

def ofCodePoint (code : Nat) : Reading :=
  if Utf16.isHighSurrogate code || Utf16.isLowSurrogate code then .surrogate code else .exact [Char.ofNat code]

def leadingHexDigits (count : Nat) (text : Text) : Text := (text.take count).takeWhile isHexDigit

def dropOctalDigits : Nat → Text → Text
  | count + 1, c :: text => if isOctalDigit c then dropOctalDigits count text else c :: text
  | _, text => text

def readBraced (text : Text) : Reading × Text :=
  let digits := text.takeWhile isHexDigit
  let after := text.dropWhile isHexDigit
  if digits = [] then (.refused, text)
  else if 2 ^ 32 ≤ hexNumber digits then (.overflow, after)
  else if after.head? = some '\x7d' then (if hexNumber digits ≤ 0x10FFFF then ofCodePoint (hexNumber digits) else .refused, after.tail)
  else (.refused, after)

/-- What comes after a high surrogate: the digits of another escape of four digits, or of what is meant to be one. -/
def nextUnicodeEscape : Text → Option Text
  | '\\' :: 'u' :: text => if text.head? = some '\x7b' then none else some text
  | _ => none

def readUnicode (text : Text) : Reading × Text :=
  if text.head? = some '\x7b' then readBraced text.tail
  else
    let digits := leadingHexDigits 4 text
    let after := text.drop digits.length
    if digits.length < 4 then (.refused, after)
    else
      match if Utf16.isHighSurrogate (hexNumber digits) then nextUnicodeEscape after else none with
      | none => (ofCodePoint (hexNumber digits), after)
      | some next =>
        let digits' := leadingHexDigits 4 next
        if digits'.length < 4 then (.refused, after)
        else if Utf16.isLowSurrogate (hexNumber digits') then
          (.exact [Char.ofNat (Utf16.pair (hexNumber digits) (hexNumber digits'))], next.drop 4)
        else (.surrogate (hexNumber digits), after)

def readHex (text : Text) : Reading × Text :=
  let digits := leadingHexDigits 2 text
  let after := text.drop digits.length
  if digits.length < 2 then (.refused, after) else (.exact [Char.ofNat (hexNumber digits)], after)

/-- How an escape is read that begins with no digit and is not in the table. -/
def readUnlisted (c : Char) (text : Text) : Option (Reading × Text) :=
  if c = 'u' then some (readUnicode text)
  else if c = 'x' then some (readHex text)
  else if c = '\r' then some (.exact [], if text.head? = some '\n' then text.tail else text)
  else if c = '\n' then some (.exact [], text)
  else if c = '\u2028' ∨ c = '\u2029' then some (.separator, text)
  else if c = '\u0085' then some (.nextLine, text)
  else if c.toNat < 0x80 then some (.exact [c], text)
  else none

/-- How the text after a backslash is read, and what comes then. For most characters beyond ASCII the reading stops between their
bytes. -/
def readEscape : Text → Option (Reading × Text)
  | [] => some (.refused, [])
  | c :: text =>
    if c = '\x00' then some (.null, c :: text)
    else if c = '0' then
      some (if text.head?.any Char.isDigit then (.refused, dropOctalDigits 2 text) else (.exact ['\x00'], text))
    else if '1' ≤ c ∧ c ≤ '7' then some (.refused, dropOctalDigits (if c ≤ '3' then 2 else 1) text)
    else if c = '8' ∨ c = '9' then some (.refused, text)
    else
      match Scanner.singleEscapes.lookup c with
      | some escaped => some (.exact [escaped], text)
      | none => readUnlisted c text

/-- Where a literal ends: with its closing quote, or before a line break or the end of the text. -/
inductive Ending
  | closed (rest : Text)
  | unterminated
  deriving DecidableEq

def readString (quote : Char) : Nat → Text → Option (List Reading × Ending)
  | 0, _ => some ([], .unterminated)
  | _ + 1, [] => some ([], .unterminated)
  | fuel + 1, c :: text =>
    if c = quote then some ([], .closed text)
    else if c = '\\' then
      (readEscape text).bind fun (reading, more) => (readString quote fuel more).map (Prod.map (reading :: ·) id)
    else if c = '\n' ∨ c = '\r' then some ([], .unterminated)
    else (readString quote fuel text).map (Prod.map (.exact [c] :: ·) id)

section
variable {count : Nat} {digits rest text : Text}

theorem takeWhile_hexDigits (hex : ∀ d ∈ digits, isHexDigit d = true) (other : rest.head?.any isHexDigit = false) :
    (digits ++ rest).takeWhile isHexDigit = digits ∧ (digits ++ rest).dropWhile isHexDigit = rest := by
  rw [takeWhile_append_of_pos hex, dropWhile_append_of_pos hex]
  cases rest with
  | nil => exact ⟨append_nil _, rfl⟩
  | cons c rest =>
    have stops : isHexDigit c = false := other
    rw [takeWhile_cons, dropWhile_cons, stops]
    exact ⟨append_nil _, rfl⟩

theorem leadingHexDigits_append (long : digits.length = count) (hex : ∀ d ∈ digits, isHexDigit d = true) :
    leadingHexDigits count (digits ++ rest) = digits := by
  rw [leadingHexDigits, ← long, take_left, takeWhile_eq_self_iff]
  exact hex

theorem mem_leadingHexDigits : ∀ d ∈ leadingHexDigits count text, isHexDigit d = true :=
  fun _ listed => mem_takeWhile_imp listed

theorem length_leadingHexDigits : (leadingHexDigits count text).length ≤ count :=
  (List.takeWhile_prefix _).length_le.trans (length_take_le _ _)

theorem leadingHexDigits_drop : text = leadingHexDigits count text ++ text.drop (leadingHexDigits count text).length := by
  have begins : leadingHexDigits count text <+: text := (List.takeWhile_prefix _).trans (List.take_prefix _ _)
  exact prefix_iff_eq_append.mp begins |>.symm

theorem exists_hexDigits_iff {p : Text → Text → Prop} : (∃ digits rest, digits.length = count ∧ (∀ d ∈ digits, isHexDigit d = true) ∧
      text = digits ++ rest ∧ p digits rest) ↔
    ¬(leadingHexDigits count text).length < count ∧ p (leadingHexDigits count text) (text.drop (leadingHexDigits count text).length) := by
  constructor
  · rintro ⟨digits, rest, long, hex, rfl, holds⟩
    rw [leadingHexDigits_append long hex, drop_left]
    exact ⟨Nat.not_lt.mpr (Nat.le_of_eq long.symm), holds⟩
  · rintro ⟨long, holds⟩
    exact ⟨_, _, Nat.le_antisymm length_leadingHexDigits (Nat.not_lt.mp long), mem_leadingHexDigits, leadingHexDigits_drop, holds⟩

theorem hexValue_lt {c : Char} {n : Nat} (value : hexValue c = some n) : n < 16 := by
  unfold hexValue at value
  split at value
  · rename_i range
    cases value
    have high : c.toNat ≤ 57 := range.2
    omega
  split at value
  · rename_i range
    cases value
    have high : c.toNat ≤ 102 := range.2
    omega
  split at value
  · rename_i range
    cases value
    have high : c.toNat ≤ 70 := range.2
    omega
  · cases value

theorem hexNumber_concat (digits : Text) (d : Char) : hexNumber (digits ++ [d]) = hexNumber digits * 16 + (hexValue d).getD 0 :=
  foldl_concat _ _ _ _

theorem hexNumber_lt (digits : Text) : hexNumber digits < 16 ^ digits.length := by
  induction digits using List.reverseRecOn with
  | nil => exact Nat.one_pos
  | append_singleton digits d ih =>
    have last : (hexValue d).getD 0 < 16 := by
      cases value : hexValue d with
      | none => decide
      | some n => exact hexValue_lt value
    rw [hexNumber_concat, length_append, length_singleton, Nat.pow_succ]
    omega
end

section
variable {quote c escaped : Char} {text more rest : Text} {units : List Nat}

theorem isEscape_nil : ¬IsEscape [] units more := by
  intro escape
  cases escape

theorem isEscape_ordinary (zero : c ≠ '0') (hex : c ≠ 'x') (unicode : c ≠ 'u') (line : ¬IsLineTerminator c) :
    IsEscape (c :: text) units more ↔ more = text ∧ ((∃ escaped, singleEscapeCharacters.lookup c = some escaped ∧ units = [escaped.toNat]) ∨
      IsNonEscapeCharacter c ∧ units = Utf16.unitsOf c.toNat) := by
  constructor
  · intro escape
    cases escape with
    | single known => exact ⟨rfl, .inl ⟨_, known, rfl⟩⟩
    | nonEscape plain => exact ⟨rfl, .inr ⟨plain, rfl⟩⟩
    | zero => exact absurd rfl zero
    | hex => exact absurd rfl hex
    | unicode => exact absurd rfl unicode
    | codePoint => exact absurd rfl unicode
    | lineContinuation terminator => exact absurd terminator line
    | lineFeed => exact absurd (.inr (.inl rfl)) line
  · rintro ⟨rfl, ⟨escaped, known, rfl⟩ | ⟨plain, rfl⟩⟩
    · exact .single known
    · exact .nonEscape plain

theorem isEscape_zero : IsEscape ('0' :: text) units more ↔ text.head?.any Char.isDigit = false ∧ units = [0] ∧ more = text := by
  constructor
  · intro escape
    cases escape with
    | single known => cases known
    | nonEscape plain => cases plain.2.1
    | zero apart => exact ⟨apart, rfl, rfl⟩
    | lineContinuation terminator => exact absurd terminator (by decide)
  · rintro ⟨apart, rfl, rfl⟩
    exact .zero apart

theorem isEscape_hex : IsEscape ('x' :: text) units more ↔ ¬(leadingHexDigits 2 text).length < 2 ∧
    units = [hexNumber (leadingHexDigits 2 text)] ∧ more = text.drop (leadingHexDigits 2 text).length := by
  rw [← @exists_hexDigits_iff 2 text fun digits rest => units = [hexNumber digits] ∧ more = rest]
  constructor
  · intro escape
    cases escape with
    | single known => cases known
    | nonEscape plain => exact absurd rfl plain.2.2.1
    | hex long hex => exact ⟨_, _, long, hex, rfl, rfl, rfl⟩
    | lineContinuation terminator => exact absurd terminator (by decide)
  · rintro ⟨digits, rest, long, hex, rfl, rfl, rfl⟩
    exact .hex long hex

theorem isEscape_braced : IsEscape ('u' :: '\x7b' :: text) units more ↔ text.takeWhile isHexDigit ≠ [] ∧
    hexNumber (text.takeWhile isHexDigit) ≤ 0x10FFFF ∧ text.dropWhile isHexDigit = '\x7d' :: more ∧
    units = Utf16.unitsOf (hexNumber (text.takeWhile isHexDigit)) := by
  have brace : isHexDigit '\x7b' = false := by decide
  constructor
  · intro escape
    generalize shape : '\x7b' :: text = all at escape
    cases escape with
    | single known => cases known
    | nonEscape plain => exact absurd rfl plain.2.2.2.1
    | @unicode digits rest long hex =>
      cases digits with
      | nil => cases long
      | cons d digits =>
        have first := hex d mem_cons_self
        rw [← (List.cons.inj shape).1, brace] at first
        cases first
    | @codePoint digits _ some_ hex small =>
      obtain ⟨run, after⟩ := @takeWhile_hexDigits digits ('\x7d' :: more) hex rfl
      obtain rfl := (List.cons.inj shape).2
      rw [run, after]
      exact ⟨some_, small, rfl, rfl⟩
    | lineContinuation terminator => exact absurd terminator (by decide)
  · rintro ⟨some_, small, after, rfl⟩
    have whole := takeWhile_append_dropWhile (p := isHexDigit) (l := text)
    rw [after] at whole
    conv => arg 1; rw [← whole]
    exact .codePoint some_ (fun _ listed => mem_takeWhile_imp listed) small

theorem isEscape_unicode (open_ : text.head? ≠ some '\x7b') : IsEscape ('u' :: text) units more ↔
    ¬(leadingHexDigits 4 text).length < 4 ∧ units = [hexNumber (leadingHexDigits 4 text)] ∧
      more = text.drop (leadingHexDigits 4 text).length := by
  rw [← @exists_hexDigits_iff 4 text fun digits rest => units = [hexNumber digits] ∧ more = rest]
  constructor
  · intro escape
    cases escape with
    | single known => cases known
    | nonEscape plain => exact absurd rfl plain.2.2.2.1
    | unicode long hex => exact ⟨_, _, long, hex, rfl, rfl, rfl⟩
    | codePoint => exact absurd rfl open_
    | lineContinuation terminator => exact absurd terminator (by decide)
  · rintro ⟨digits, rest, long, hex, rfl, rfl, rfl⟩
    exact .unicode long hex

theorem isEscape_lineTerminator (line : IsLineTerminator c) : IsEscape (c :: text) units more ↔
    units = [] ∧ more = if c = '\r' ∧ text.head? = some '\n' then text.tail else text := by
  have unknown : singleEscapeCharacters.lookup c = none := by
    rcases line with rfl | rfl | rfl | rfl
    all_goals rfl
  constructor
  · intro escape
    cases escape with
    | single known =>
      rw [unknown] at known
      cases known
    | nonEscape plain => exact absurd line plain.2.2.2.2
    | zero => exact absurd line (by decide)
    | hex => exact absurd line (by decide)
    | unicode => exact absurd line (by decide)
    | codePoint => exact absurd line (by decide)
    | lineContinuation _ apart => exact ⟨rfl, (if_neg apart).symm⟩
    | lineFeed => exact ⟨rfl, rfl⟩
  · rintro ⟨rfl, rfl⟩
    by_cases both : c = '\r' ∧ text.head? = some '\n'
    · obtain ⟨rfl, feed⟩ := both
      obtain ⟨rest, rfl⟩ := List.head?_eq_some_iff.mp feed
      exact .lineFeed
    · rw [if_neg both]
      exact .lineContinuation line both

theorem isStringLiteral_nil : ¬IsStringLiteral quote [] units rest := by
  intro literal
  cases literal

theorem isStringLiteral_close (apart : quote ≠ '\\') : IsStringLiteral quote (quote :: text) units rest ↔ units = [] ∧ text = rest := by
  constructor
  · intro literal
    cases literal with
    | close => exact ⟨rfl, rfl⟩
    | character other => exact absurd rfl other
    | escape => exact absurd rfl apart
  · rintro ⟨rfl, rfl⟩
    exact .close

theorem isStringLiteral_escape (apart : quote ≠ '\\') : IsStringLiteral quote ('\\' :: text) units rest ↔
    ∃ here more later, IsEscape text here more ∧ IsStringLiteral quote more later rest ∧ units = here ++ later := by
  constructor
  · intro literal
    cases literal with
    | close => exact absurd rfl apart
    | character _ other => exact absurd rfl other
    | escape here later => exact ⟨_, _, _, here, later, rfl⟩
  · rintro ⟨here, more, later, escape, literal, rfl⟩
    exact .escape escape literal

theorem isStringLiteral_character (closes : c ≠ quote) (escapes : c ≠ '\\') : IsStringLiteral quote (c :: text) units rest ↔
    ¬(c = '\n' ∨ c = '\r') ∧ ∃ later, IsStringLiteral quote text later rest ∧ units = Utf16.unitsOf c.toNat ++ later := by
  constructor
  · intro literal
    cases literal with
    | close => exact absurd rfl closes
    | character _ _ feed return_ literal => exact ⟨fun line => line.elim feed return_, _, literal, rfl⟩
    | escape => exact absurd rfl escapes
  · rintro ⟨line, later, literal, rfl⟩
    exact .character closes escapes (fun feed => line (.inl feed)) (fun return_ => line (.inr return_)) literal
end

section
variable {quote c : Char} {text more rest : Text} {units : List Nat} {r : Reading} {code : Nat}

def Agrees (text : Text) (r : Reading) (more : Text) : Prop :=
  ∀ units more', IsEscape text units more' ↔ r.Grammatical ∧ units = r.units ∧ more' = more

theorem grammatical_exact (value : Text) : (Reading.exact value).Grammatical := ⟨by simp, by simp⟩

theorem grammatical_surrogate (unit : Nat) : (Reading.surrogate unit).Grammatical := ⟨by simp, by simp⟩

theorem not_grammatical_refused : ¬Reading.refused.Grammatical := fun both => both.1 rfl

theorem not_grammatical_overflow : ¬Reading.overflow.Grammatical := fun both => both.2 rfl

theorem toNat_ofNat (small : code ≤ 0x10FFFF) (high : Utf16.isHighSurrogate code = false) (low : Utf16.isLowSurrogate code = false) :
    (Char.ofNat code).toNat = code := by
  rw [Bool.eq_false_iff, ne_eq, Utf16.isHighSurrogate_iff] at high
  rw [Bool.eq_false_iff, ne_eq, Utf16.isLowSurrogate_iff] at low
  have valid : code.isValidChar := by
    omega
  rw [Char.ofNat, dif_pos valid]
  rfl

theorem ofCodePoint_spec (small : code ≤ 0x10FFFF) : (ofCodePoint code).Grammatical ∧ (ofCodePoint code).units = Utf16.unitsOf code := by
  unfold ofCodePoint
  split
  · rename_i surrogate
    refine ⟨grammatical_surrogate _, ?_⟩
    rw [Bool.or_eq_true, Utf16.isHighSurrogate_iff, Utf16.isLowSurrogate_iff] at surrogate
    exact (if_pos (by omega)).symm
  · rename_i plain
    rw [Bool.or_eq_true, not_or, Bool.not_eq_true, Bool.not_eq_true] at plain
    refine ⟨grammatical_exact _, ?_⟩
    rw [Reading.units, Utf16.encode, flatMap_singleton, toNat_ofNat small plain.1 plain.2]

theorem ofCodePoint_small (small : code < 0xD800) : ofCodePoint code = .exact [Char.ofNat code] := by
  refine if_neg fun surrogate => ?_
  rw [Bool.or_eq_true, Utf16.isHighSurrogate_iff, Utf16.isLowSurrogate_iff] at surrogate
  omega

theorem agrees_readHex : Agrees ('x' :: text) (readHex text).1 (readHex text).2 := by
  intro units more
  rw [isEscape_hex]
  unfold readHex
  dsimp only
  split
  · rename_i short
    exact iff_of_false (fun parts => parts.1 short) fun parts => not_grammatical_refused parts.1
  rename_i long
  have two : (leadingHexDigits 2 text).length = 2 := Nat.le_antisymm length_leadingHexDigits (Nat.not_lt.mp long)
  have small := hexNumber_lt (leadingHexDigits 2 text)
  rw [two] at small
  have plain := ofCodePoint_small (Nat.lt_trans small (by decide))
  obtain ⟨grammatical, same⟩ := @ofCodePoint_spec (hexNumber (leadingHexDigits 2 text)) (by omega)
  rw [plain] at grammatical same
  have single : Utf16.unitsOf (hexNumber (leadingHexDigits 2 text)) = [hexNumber (leadingHexDigits 2 text)] := if_pos (by omega)
  rw [same, single]
  exact and_congr_left fun _ => iff_of_true long grammatical

theorem agrees_readBraced : Agrees ('u' :: '\x7b' :: text) (readBraced text).1 (readBraced text).2 := by
  intro units more
  rw [isEscape_braced]
  unfold readBraced
  dsimp only
  split
  · rename_i none
    exact iff_of_false (fun parts => parts.1 none) fun parts => not_grammatical_refused parts.1
  rename_i some_
  split
  · exact iff_of_false (fun parts => by omega) fun parts => not_grammatical_overflow parts.1
  split
  · rename_i closed
    obtain ⟨rest, after⟩ := List.head?_eq_some_iff.mp closed
    rw [after]
    split
    · rename_i small
      obtain ⟨grammatical, same⟩ := ofCodePoint_spec small
      rw [same]
      constructor
      · rintro ⟨-, -, tail, rfl⟩
        exact ⟨grammatical, rfl, (List.cons.inj tail).2.symm⟩
      · rintro ⟨-, rfl, rfl⟩
        exact ⟨some_, small, rfl, rfl⟩
    · rename_i large
      exact iff_of_false (fun parts => large parts.2.1) fun parts => not_grammatical_refused parts.1
  · rename_i open_
    refine iff_of_false (fun parts => open_ ?_) fun parts => not_grammatical_refused parts.1
    rw [parts.2.2.1]
    rfl

def Continues (quote : Char) (text : Text) (r : Reading) (more : Text) : Prop :=
  ∀ units rest, IsStringLiteral quote ('\\' :: text) units rest ↔
    r.Grammatical ∧ ∃ later, IsStringLiteral quote more later rest ∧ units = r.units ++ later

theorem Agrees.continues (agrees : Agrees text r more) (apart : quote ≠ '\\') : Continues quote text r more := by
  intro units rest
  rw [isStringLiteral_escape apart]
  constructor
  · rintro ⟨here, more', later, escape, literal, rfl⟩
    obtain ⟨grammatical, rfl, rfl⟩ := (agrees here more').mp escape
    exact ⟨grammatical, later, literal, rfl⟩
  · rintro ⟨grammatical, later, literal, rfl⟩
    exact ⟨r.units, more, later, (agrees r.units more).mpr ⟨grammatical, rfl, rfl⟩, literal, rfl⟩

theorem nextUnicodeEscape_some {next : Text} (found : nextUnicodeEscape text = some next) :
    text = '\\' :: 'u' :: next ∧ next.head? ≠ some '\x7b' := by
  unfold nextUnicodeEscape at found
  split at found
  · split at found
    · cases found
    · rename_i open_
      cases found
      exact ⟨rfl, open_⟩
  · cases found

theorem pair_units {high low : Nat} (isHigh : Utf16.isHighSurrogate high = true) (isLow : Utf16.isLowSurrogate low = true) :
    (Reading.exact [Char.ofNat (Utf16.pair high low)]).units = [high, low] := by
  rw [Utf16.isHighSurrogate_iff] at isHigh
  rw [Utf16.isLowSurrogate_iff] at isLow
  have number : (Char.ofNat (Utf16.pair high low)).toNat = Utf16.pair high low := by
    unfold Utf16.pair
    refine toNat_ofNat (by omega) ?_ ?_
    · rw [Bool.eq_false_iff, ne_eq, Utf16.isHighSurrogate_iff]
      omega
    · rw [Bool.eq_false_iff, ne_eq, Utf16.isLowSurrogate_iff]
      omega
  rw [Reading.units, Utf16.encode, flatMap_singleton, number]
  unfold Utf16.pair
  have first : 0xD800 + ((high - 0xD800) * 0x400 + (low - 0xDC00) + 0x10000 - 0x10000) / 0x400 = high := by omega
  have second : 0xDC00 + ((high - 0xD800) * 0x400 + (low - 0xDC00) + 0x10000 - 0x10000) % 0x400 = low := by omega
  rw [Utf16.unitsOf, if_neg (by omega), first, second]

theorem continues_readUnicode (apart : quote ≠ '\\') : Continues quote ('u' :: text) (readUnicode text).1 (readUnicode text).2 := by
  unfold readUnicode
  by_cases braced : text.head? = some '\x7b'
  · obtain ⟨text', rfl⟩ := List.head?_eq_some_iff.mp braced
    exact agrees_readBraced.continues apart
  rw [if_neg braced]
  dsimp only
  have inverse := @isEscape_unicode text
  split
  · rename_i short
    refine Agrees.continues (fun units more => ?_) apart
    rw [inverse braced]
    exact iff_of_false (fun parts => parts.1 short) fun parts => not_grammatical_refused parts.1
  rename_i long
  have small := hexNumber_lt (leadingHexDigits 4 text)
  have four : (leadingHexDigits 4 text).length = 4 := Nat.le_antisymm length_leadingHexDigits (Nat.not_lt.mp long)
  rw [four] at small
  have single : Utf16.unitsOf (hexNumber (leadingHexDigits 4 text)) = [hexNumber (leadingHexDigits 4 text)] := if_pos small
  have alone (r : Reading) (grammatical : r.Grammatical) (same : r.units = [hexNumber (leadingHexDigits 4 text)]) :
      Continues quote ('u' :: text) r (text.drop (leadingHexDigits 4 text).length) := by
    refine Agrees.continues (fun units more => ?_) apart
    rw [inverse braced, same]
    exact and_congr_left fun _ => iff_of_true long grammatical
  split
  · obtain ⟨grammatical, same⟩ := @ofCodePoint_spec (hexNumber (leadingHexDigits 4 text)) (by omega)
    exact alone _ grammatical (same.trans single)
  rename_i next found
  obtain ⟨high, found⟩ := Option.ite_none_right_eq_some.mp found
  obtain ⟨after, open_⟩ := nextUnicodeEscape_some found
  split
  · rename_i short
    intro units rest
    refine iff_of_false (fun literal => ?_) fun parts => not_grammatical_refused parts.1
    obtain ⟨here, more, later, escape, literal, -⟩ := (isStringLiteral_escape apart).mp literal
    obtain ⟨-, -, rfl⟩ := (inverse braced).mp escape
    rw [after] at literal
    obtain ⟨here', more', -, escape', -⟩ := (isStringLiteral_escape apart).mp literal
    exact ((isEscape_unicode open_).mp escape').1 short
  rename_i long'
  have four' : (leadingHexDigits 4 next).length = 4 := Nat.le_antisymm length_leadingHexDigits (Nat.not_lt.mp long')
  split
  · rename_i low
    intro units rest
    rw [isStringLiteral_escape apart]
    have pair := pair_units high low
    constructor
    · rintro ⟨here, more, later, escape, literal, rfl⟩
      obtain ⟨-, rfl, rfl⟩ := (inverse braced).mp escape
      rw [after] at literal
      obtain ⟨here', more', later', escape', literal', rfl⟩ := (isStringLiteral_escape apart).mp literal
      obtain ⟨-, rfl, rfl⟩ := (isEscape_unicode open_).mp escape'
      rw [four'] at literal'
      refine ⟨grammatical_exact _, later', literal', ?_⟩
      rw [pair]
      rfl
    · rintro ⟨-, later, literal, same⟩
      rw [pair] at same
      refine ⟨_, _, [hexNumber (leadingHexDigits 4 next)] ++ later, (inverse braced).mpr ⟨long, rfl, rfl⟩, ?_, same⟩
      rw [after]
      refine .escape ((isEscape_unicode open_).mpr ⟨long', rfl, rfl⟩) ?_
      rw [four']
      exact literal
  · exact alone _ (grammatical_surrogate _) rfl

theorem encode_single (c : Char) : Utf16.encode [c] = Utf16.unitsOf c.toNat := flatMap_singleton _ _

theorem lookup_singleEscapeCharacters (other : c ≠ '\\') : singleEscapeCharacters.lookup c = Scanner.singleEscapes.lookup c := by
  have apart : (c == '\\') = false := beq_eq_false_iff_ne.mpr other
  rw [singleEscapeCharacters, lookup_cons, apart]

theorem agrees_self (value : Reading) (grammatical : value.Grammatical) (same : value.units = Utf16.unitsOf c.toNat)
    (unknown : Scanner.singleEscapes.lookup c = none) (digit : c.isDigit = false) (hex : c ≠ 'x') (unicode : c ≠ 'u')
    (line : ¬IsLineTerminator c) : Agrees (c :: text) value text := by
  intro units more
  have zero : c ≠ '0' := by
    rintro rfl
    cases digit
  rw [isEscape_ordinary zero hex unicode line, same]
  by_cases backslash : c = '\\'
  · have known : singleEscapeCharacters.lookup c = some '\\' := by rw [backslash]; rfl
    have unit : Utf16.unitsOf c.toNat = ['\\'.toNat] := by rw [backslash]; rfl
    rw [known, unit]
    constructor
    · rintro ⟨rfl, ⟨escaped, found, rfl⟩ | ⟨plain, -⟩⟩
      · cases found
        exact ⟨grammatical, rfl, rfl⟩
      · rw [plain.1] at known
        cases known
    · rintro ⟨-, rfl, rfl⟩
      exact ⟨rfl, .inl ⟨_, rfl, rfl⟩⟩
  · have none := (lookup_singleEscapeCharacters backslash).trans unknown
    rw [none]
    constructor
    · rintro ⟨rfl, ⟨escaped, found, -⟩ | ⟨-, rfl⟩⟩
      · cases found
      · exact ⟨grammatical, rfl, rfl⟩
    · rintro ⟨-, rfl, rfl⟩
      exact ⟨rfl, .inr ⟨⟨none, digit, hex, unicode, line⟩, rfl⟩⟩

theorem agrees_digit (digit : c.isDigit = true) (zero : c ≠ '0') : Agrees (c :: text) .refused more := by
  intro units more'
  have other (d : Char) (notDigit : d.isDigit = false) : c ≠ d := by
    rintro rfl
    rw [notDigit] at digit
    cases digit
  have line : ¬IsLineTerminator c := by
    rintro (rfl | rfl | rfl | rfl)
    all_goals cases digit
  have unknown : singleEscapeCharacters.lookup c = none := by
    refine lookup_eq_none_iff.mpr fun entry listed => bne_iff_ne.mpr (other _ ?_)
    have letters : ∀ entry ∈ singleEscapeCharacters, entry.1.isDigit = false := by decide
    exact letters entry listed
  rw [isEscape_ordinary zero (other _ (by decide)) (other _ (by decide)) line, unknown]
  refine iff_of_false ?_ fun parts => not_grammatical_refused parts.1
  rintro ⟨-, ⟨escaped, found, -⟩ | ⟨plain, -⟩⟩
  · cases found
  · rw [plain.2.1] at digit
    cases digit

theorem agrees_single {escaped : Char} (known : Scanner.singleEscapes.lookup c = some escaped) : Agrees (c :: text) (.exact [escaped]) text := by
  intro units more
  obtain ⟨before, after, shape, -⟩ := lookup_eq_some_iff.mp known
  have listed : (c, escaped) ∈ Scanner.singleEscapes := by
    rw [shape]
    exact mem_append_right _ mem_cons_self
  have marks : ∀ entry ∈ Scanner.singleEscapes, entry.1 ≠ '\\' ∧ entry.1 ≠ '0' ∧ entry.1 ≠ 'x' ∧ entry.1 ≠ 'u' ∧ ¬IsLineTerminator entry.1 ∧
      entry.2.toNat < 0x10000 := by decide
  obtain ⟨backslash, zero, hex, unicode, line, small⟩ := marks _ listed
  have found := (lookup_singleEscapeCharacters backslash).trans known
  have unit : (Reading.exact [escaped]).units = [escaped.toNat] := (encode_single escaped).trans (if_pos small)
  rw [isEscape_ordinary zero hex unicode line, found, unit]
  constructor
  · rintro ⟨rfl, ⟨other, same, rfl⟩ | ⟨plain, -⟩⟩
    · cases same
      exact ⟨grammatical_exact _, rfl, rfl⟩
    · rw [plain.1] at found
      cases found
  · rintro ⟨-, rfl, rfl⟩
    exact ⟨rfl, .inl ⟨_, rfl, rfl⟩⟩

theorem agrees_lineTerminator (line : IsLineTerminator c) (value : Reading) (grammatical : value.Grammatical) (none : value.units = []) :
    Agrees (c :: text) value (if c = '\r' ∧ text.head? = some '\n' then text.tail else text) := by
  intro units more
  rw [isEscape_lineTerminator line, none]
  exact (and_iff_right grammatical).symm

theorem continues_null (apart : quote ≠ '\\') (visible : quote ≠ '\x00') :
    Continues quote ('\x00' :: text) .null ('\x00' :: text) := by
  intro units rest
  have self : Agrees ('\x00' :: text) (.exact ['\x00']) text :=
    agrees_self _ (grammatical_exact _) (encode_single _) rfl rfl (by decide) (by decide) (by decide)
  rw [self.continues apart]
  have grammatical : Reading.null.Grammatical := ⟨by simp, by simp⟩
  have here (later : List Nat) : IsStringLiteral quote ('\x00' :: text) later rest ↔
      ∃ later', IsStringLiteral quote text later' rest ∧ later = Utf16.unitsOf '\x00'.toNat ++ later' := by
    rw [isStringLiteral_character (Ne.symm visible) (by decide)]
    exact and_iff_right (by decide)
  constructor
  · rintro ⟨-, later, literal, rfl⟩
    exact ⟨grammatical, _, (here _).mpr ⟨later, literal, rfl⟩, rfl⟩
  · rintro ⟨-, later, literal, same⟩
    obtain ⟨later', literal', rfl⟩ := (here later).mp literal
    subst same
    exact ⟨grammatical_exact _, later', literal', rfl⟩

theorem isDigit_iff : c.isDigit = true ↔ '0' ≤ c ∧ c ≤ '9' := by
  unfold Char.isDigit
  rw [Bool.and_eq_true, decide_eq_true_eq, decide_eq_true_eq]
  rfl

theorem not_digit (zero : c ≠ '0') (octal : ¬('1' ≤ c ∧ c ≤ '7')) (decimal : ¬(c = '8' ∨ c = '9')) : c.isDigit = false := by
  rw [Bool.eq_false_iff, ne_eq, isDigit_iff]
  rintro ⟨low, high⟩
  have low : 48 ≤ c.toNat := low
  have high : c.toNat ≤ 57 := high
  have number (d : Char) (other : c ≠ d) : c.toNat ≠ d.toNat := fun same => other (Char.toNat_inj.mp same)
  have zero : c.toNat ≠ 48 := number _ zero
  have eight : c.toNat ≠ 56 := number '8' fun same => decimal (.inl same)
  have nine : c.toNat ≠ 57 := number '9' fun same => decimal (.inr same)
  have octal : ¬(49 ≤ c.toNat ∧ c.toNat ≤ 55) := octal
  omega

theorem continues_readUnlisted (apart : quote ≠ '\\') (unknown : Scanner.singleEscapes.lookup c = none) (digit : c.isDigit = false)
    (read : readUnlisted c text = some (r, more)) : Continues quote (c :: text) r more := by
  rw [readUnlisted] at read
  by_cases unicode : c = 'u'
  · rw [if_pos unicode] at read
    have continues := @continues_readUnicode quote text apart
    rw [Option.some.inj read] at continues
    rwa [unicode]
  rw [if_neg unicode] at read
  by_cases hex : c = 'x'
  · rw [if_pos hex] at read
    have agrees := @agrees_readHex text
    rw [Option.some.inj read] at agrees
    rw [hex]
    exact agrees.continues apart
  rw [if_neg hex] at read
  by_cases line : IsLineTerminator c
  · have agrees := @agrees_lineTerminator c text line
    rcases line with rfl | rfl | rfl | rfl
    · cases read
      exact (agrees _ (grammatical_exact _) rfl).continues apart
    · have crlf : (if text.head? = some '\n' then text.tail else text) = more :=
        (Prod.mk.inj (Option.some.inj read)).2
      obtain rfl : Reading.exact [] = r := (Prod.mk.inj (Option.some.inj read)).1
      have agrees := agrees (.exact []) (grammatical_exact _) rfl
      rw [if_congr (and_iff_right rfl) rfl rfl, crlf] at agrees
      exact agrees.continues apart
    · cases read
      exact (agrees .separator ⟨by simp, by simp⟩ rfl).continues apart
    · cases read
      exact (agrees .separator ⟨by simp, by simp⟩ rfl).continues apart
  · have self := fun value grammatical same => @agrees_self c text value grammatical same unknown digit hex unicode line
    unfold IsLineTerminator at line
    rw [not_or, not_or, not_or] at line
    rw [if_neg line.2.1, if_neg line.1, if_neg (not_or.mpr line.2.2)] at read
    split at read
    · rename_i next
      cases read
      exact (self .nextLine ⟨by simp, by simp⟩ (by rw [next]; rfl)).continues apart
    · split at read
      · cases read
        exact (self _ (grammatical_exact _) (encode_single c)).continues apart
      · cases read

theorem continues_readEscape (apart : quote ≠ '\\') (visible : quote ≠ '\x00') (read : readEscape text = some (r, more)) :
    Continues quote text r more := by
  cases text with
  | nil =>
    cases read
    refine Agrees.continues (fun units more => ?_) apart
    exact iff_of_false isEscape_nil fun parts => not_grammatical_refused parts.1
  | cons c text =>
    rw [readEscape] at read
    by_cases null : c = '\x00'
    · rw [if_pos null] at read
      cases read
      rw [null]
      exact continues_null apart visible
    rw [if_neg null] at read
    by_cases zero : c = '0'
    · subst zero
      refine Agrees.continues (fun units more => ?_) apart
      rw [isEscape_zero]
      cases digit : text.head?.any Char.isDigit with
      | true =>
        rw [digit] at read
        cases read
        exact iff_of_false (fun parts => by cases parts.1) fun parts => not_grammatical_refused parts.1
      | false =>
        rw [digit] at read
        cases read
        exact and_congr_left fun _ => iff_of_true rfl (grammatical_exact _)
    rw [if_neg zero] at read
    by_cases octal : '1' ≤ c ∧ c ≤ '7'
    · rw [if_pos octal] at read
      cases read
      exact (agrees_digit (isDigit_iff.mpr ⟨Nat.le_trans (by decide) octal.1, Nat.le_trans octal.2 (by decide)⟩) zero).continues apart
    rw [if_neg octal] at read
    by_cases decimal : c = '8' ∨ c = '9'
    · rw [if_pos decimal] at read
      cases read
      refine (agrees_digit ?_ zero).continues apart
      rcases decimal with rfl | rfl
      all_goals rfl
    rw [if_neg decimal] at read
    have digit : c.isDigit = false := not_digit zero octal decimal
    split at read
    · rename_i escaped known
      cases read
      exact (agrees_single known).continues apart
    · rename_i unknown
      exact continues_readUnlisted apart unknown digit read

theorem dropOctalDigits_suffix (count : Nat) (text : Text) : dropOctalDigits count text <:+ text := by
  fun_induction dropOctalDigits count text with
  | case1 count c text octal ih => exact ih.trans (suffix_cons c text)
  | case2 => exact suffix_rfl
  | case3 => exact suffix_rfl

def Reading.WellFormed (r : Reading) : Prop :=
  ∀ unit, r = .surrogate unit → Utf16.isHighSurrogate unit = true ∨ Utf16.isLowSurrogate unit = true

theorem wellFormed_of_ne (other : ∀ unit, r ≠ .surrogate unit) : r.WellFormed := fun unit same => absurd same (other unit)

theorem wellFormed_ofCodePoint (code : Nat) : (ofCodePoint code).WellFormed := by
  intro unit same
  unfold ofCodePoint at same
  split at same
  · rename_i surrogate
    cases same
    exact (Bool.or_eq_true _ _).mp surrogate
  · cases same

structure Follows (text : Text) (read : Reading × Text) : Prop where
  suffix : read.2 <:+ text
  wellFormed : read.1.WellFormed

theorem Follows.refused (suffix : more <:+ text) : Follows text (.refused, more) :=
  ⟨suffix, wellFormed_of_ne fun _ same => by cases same⟩

theorem Follows.exact (value : Text) (suffix : more <:+ text) : Follows text (.exact value, more) :=
  ⟨suffix, wellFormed_of_ne fun _ same => by cases same⟩

theorem Follows.cons {read : Reading × Text} (follows : Follows text read) (c : Char) : Follows (c :: text) read :=
  ⟨follows.suffix.trans (suffix_cons c text), follows.wellFormed⟩

theorem follows_some {read : Reading × Text} (follows : Follows text read) : ∀ read' ∈ some read, Follows text read' := by
  rintro _ ⟨⟩
  exact follows

theorem readBraced_follows (text : Text) : Follows text (readBraced text) := by
  have after : text.dropWhile isHexDigit <:+ text := dropWhile_suffix _
  have tail : (text.dropWhile isHexDigit).tail <:+ text := (tail_suffix _).trans after
  unfold readBraced
  dsimp only
  split
  · exact .refused suffix_rfl
  split
  · exact ⟨after, wellFormed_of_ne fun _ same => by cases same⟩
  split
  · split
    · exact ⟨tail, wellFormed_ofCodePoint _⟩
    · exact .refused tail
  · exact .refused after

theorem readUnicode_follows (text : Text) : Follows text (readUnicode text) := by
  unfold readUnicode
  split
  · rename_i braced
    obtain ⟨text', rfl⟩ := List.head?_eq_some_iff.mp braced
    exact (readBraced_follows text').cons _
  dsimp only
  have after := drop_suffix (leadingHexDigits 4 text).length text
  split
  · exact .refused after
  split
  · exact ⟨after, wellFormed_ofCodePoint _⟩
  rename_i next found
  obtain ⟨high, found⟩ := Option.ite_none_right_eq_some.mp found
  split
  · exact .refused after
  split
  · have inside : next <:+ text.drop (leadingHexDigits 4 text).length := by
      rw [(nextUnicodeEscape_some found).1]
      exact suffix_append ['\\', 'u'] next
    exact .exact _ (((drop_suffix 4 next).trans inside).trans after)
  · refine ⟨after, fun unit same => .inl ?_⟩
    rw [← Reading.surrogate.inj same]
    exact high

theorem readHex_follows (text : Text) : Follows text (readHex text) := by
  unfold readHex
  dsimp only
  split
  · exact .refused (drop_suffix _ _)
  · exact .exact _ (drop_suffix _ _)

theorem readUnlisted_follows : ∀ read ∈ readUnlisted c text, Follows (c :: text) read := by
  have whole : text <:+ c :: text := suffix_cons c text
  unfold readUnlisted
  split
  · exact follows_some ((readUnicode_follows text).cons c)
  split
  · exact follows_some ((readHex_follows text).cons c)
  split
  · refine follows_some (.exact _ ?_)
    split
    · exact (tail_suffix _).trans whole
    · exact whole
  split
  · exact follows_some (.exact _ whole)
  split
  · exact follows_some ⟨whole, wellFormed_of_ne fun _ same => by cases same⟩
  split
  · exact follows_some ⟨whole, wellFormed_of_ne fun _ same => by cases same⟩
  split
  · exact follows_some (.exact _ whole)
  · rintro _ ⟨⟩

theorem readEscape_follows : ∀ read ∈ readEscape text, Follows text read := by
  cases text with
  | nil => exact follows_some (.refused suffix_rfl)
  | cons c text =>
    have whole : text <:+ c :: text := suffix_cons c text
    have octal (count : Nat) : Follows (c :: text) (.refused, dropOctalDigits count text) :=
      .refused ((dropOctalDigits_suffix _ _).trans whole)
    rw [readEscape]
    split
    · exact follows_some ⟨suffix_rfl, wellFormed_of_ne fun _ same => by cases same⟩
    split
    · refine follows_some ?_
      split
      · exact octal 2
      · exact .exact _ whole
    split
    · exact follows_some (octal _)
    split
    · exact follows_some (.refused whole)
    split
    · exact follows_some (.exact _ whole)
    · exact readUnlisted_follows

variable {fuel : Nat} {readings : List Reading} {ending : Ending}

/-- The literals of the grammar are those that are read to their closing quote with nothing that the grammar does not have. -/
theorem isStringLiteral_iff (apart : quote ≠ '\\') (visible : quote ≠ '\x00') (enough : text.length < fuel)
    (read : readString quote fuel text = some (readings, ending)) : IsStringLiteral quote text units rest ↔
      ending = .closed rest ∧ (∀ r ∈ readings, r.Grammatical) ∧ units = readings.flatMap Reading.units := by
  induction fuel generalizing text readings units with
  | zero => exact absurd enough (Nat.not_lt_zero _)
  | succ fuel ih =>
    cases text with
    | nil =>
      cases read
      exact iff_of_false isStringLiteral_nil fun parts => by cases parts.1
    | cons c text =>
      have enough' : text.length < fuel := Nat.lt_of_succ_lt_succ enough
      rw [readString] at read
      by_cases closes : c = quote
      · rw [if_pos closes] at read
        cases read
        rw [closes, isStringLiteral_close apart]
        constructor
        · rintro ⟨rfl, rfl⟩
          exact ⟨rfl, by simp, rfl⟩
        · rintro ⟨same, -, rfl⟩
          cases same
          exact ⟨rfl, rfl⟩
      rw [if_neg closes] at read
      by_cases escapes : c = '\\'
      · rw [if_pos escapes] at read
        obtain ⟨⟨r, more⟩, first, found⟩ := Option.bind_eq_some_iff.mp read
        obtain ⟨⟨readings', ending'⟩, later, same⟩ := Option.map_eq_some_iff.mp found
        cases same
        have shorter : more.length < fuel := Nat.lt_of_le_of_lt (readEscape_follows _ first).suffix.length_le enough'
        have ih := fun units => @ih more units readings' shorter later
        rw [escapes, continues_readEscape apart visible first units rest, forall_mem_cons, flatMap_cons]
        constructor
        · rintro ⟨grammatical, units', literal, rfl⟩
          obtain ⟨closed, all, rfl⟩ := (ih _).mp literal
          exact ⟨closed, ⟨grammatical, all⟩, rfl⟩
        · rintro ⟨closed, ⟨grammatical, all⟩, rfl⟩
          exact ⟨grammatical, _, (ih _).mpr ⟨closed, all, rfl⟩, rfl⟩
      rw [if_neg escapes] at read
      rw [isStringLiteral_character closes escapes]
      by_cases line : c = '\n' ∨ c = '\r'
      · rw [if_pos line] at read
        cases read
        exact iff_of_false (fun parts => parts.1 line) fun parts => by cases parts.1
      rw [if_neg line] at read
      obtain ⟨⟨readings', ending'⟩, later, same⟩ := Option.map_eq_some_iff.mp read
      cases same
      have ih := fun units => @ih text units readings' enough' later
      have unit : (Reading.exact [c]).units = Utf16.unitsOf c.toNat := encode_single c
      rw [and_iff_right line, forall_mem_cons, flatMap_cons, unit]
      constructor
      · rintro ⟨units', literal, rfl⟩
        obtain ⟨closed, all, rfl⟩ := (ih _).mp literal
        exact ⟨closed, ⟨grammatical_exact _, all⟩, rfl⟩
      · rintro ⟨closed, ⟨-, all⟩, rfl⟩
        exact ⟨_, (ih _).mpr ⟨closed, all, rfl⟩, rfl⟩
end

variable {readings : List Reading} {text : Text} {r : Reading}

/-- An escape or a character that is read as what it stands for. -/
def Reading.IsExact : Reading → Prop
  | exact _ => True
  | surrogate _ | separator | nextLine | null | refused | overflow => False

instance (r : Reading) : Decidable r.IsExact := by
  cases r
  all_goals unfold Reading.IsExact
  all_goals infer_instance

instance (r : Reading) : Decidable r.Quiet := inferInstanceAs (Decidable (_ ∧ _))

instance (r : Reading) : Decidable r.Grammatical := inferInstanceAs (Decidable (_ ∧ _))

/-- The number of characters that the units of a text stand for. -/
def characters (units : List Nat) : Nat := units.countP fun unit => !Utf16.isLowSurrogate unit

theorem characters_encode (text : Text) : characters (Utf16.encode text) = text.length := by
  have read := Utf16.decode_encode_append text []
  rw [append_nil] at read
  have read : Utf16.decode (Utf16.encode text) = some text := by rw [read, Utf16.decode, Option.map_some, append_nil]
  exact (Utf16.length_of_decode read).symm

/-- What is read has at least as many characters as it should, and as many only if nothing but a high surrogate is misread. -/
theorem characters_le (wellFormed : r.WellFormed) (quiet : r.Quiet) (grammatical : r.Grammatical) :
    characters r.units ≤ r.value.length ∧
      (characters r.units = r.value.length → r.IsExact ∨ ∃ unit, r = .surrogate unit ∧ Utf16.isHighSurrogate unit = true) := by
  cases r with
  | exact value => exact ⟨Nat.le_of_eq (characters_encode value), fun _ => .inl trivial⟩
  | surrogate unit =>
    have single : characters (Reading.surrogate unit).units = if !Utf16.isLowSurrogate unit then 1 else 0 :=
      countP_singleton
    rw [single]
    rcases wellFormed unit rfl with high | low
    · refine ⟨?_, fun _ => .inr ⟨unit, rfl, high⟩⟩
      split
      · exact Nat.le_refl _
      · exact Nat.zero_le _
    · rw [low]
      exact ⟨Nat.zero_le _, fun same => by cases same⟩
  | separator => exact ⟨by decide, fun same => by cases same⟩
  | nextLine => exact ⟨by decide, fun same => by cases same⟩
  | null => exact absurd rfl quiet.1
  | refused => exact absurd rfl quiet.2
  | overflow => exact absurd rfl grammatical.2

def Reading.Nearly (r : Reading) : Prop := r.IsExact ∨ ∃ unit, r = .surrogate unit ∧ Utf16.isHighSurrogate unit = true

theorem characters_flatMap_le (wellFormed : ∀ r ∈ readings, r.WellFormed) (quiet : ∀ r ∈ readings, r.Quiet)
    (grammatical : ∀ r ∈ readings, r.Grammatical) :
    characters (readings.flatMap Reading.units) ≤ (readings.flatMap Reading.value).length ∧
      (characters (readings.flatMap Reading.units) = (readings.flatMap Reading.value).length → ∀ r ∈ readings, r.Nearly) := by
  induction readings with
  | nil => exact ⟨Nat.le_refl _, fun _ => by simp⟩
  | cons r readings ih =>
    rw [forall_mem_cons] at wellFormed quiet grammatical
    obtain ⟨less, same⟩ := characters_le wellFormed.1 quiet.1 grammatical.1
    obtain ⟨less', same'⟩ := ih wellFormed.2 quiet.2 grammatical.2
    have count : characters ((r :: readings).flatMap Reading.units) = characters r.units + characters (readings.flatMap Reading.units) :=
      countP_append
    rw [count, flatMap_cons, length_append]
    refine ⟨Nat.add_le_add less less', fun total => forall_mem_cons.mpr ⟨same (by omega), same' (by omega)⟩⟩

theorem head_not_low (nearly : ∀ r ∈ readings, r.Nearly) : ∀ unit ∈ (readings.flatMap Reading.units).head?,
    Utf16.isLowSurrogate unit = false := by
  induction readings with
  | nil => simp
  | cons r readings ih =>
    obtain ⟨here, later⟩ := forall_mem_cons.mp nearly
    rw [flatMap_cons]
    rcases here with exact_ | ⟨unit, rfl, high⟩
    · cases r with
      | exact value =>
        cases value with
        | nil => exact ih later
        | cons c value =>
          intro unit first
          have whole : (Reading.exact (c :: value)).units = Utf16.unitsOf c.toNat ++ Utf16.encode value := Utf16.encode_cons c value
          rw [whole, append_assoc] at first
          unfold Utf16.unitsOf at first
          split at first
          · cases first
            exact (Utf16.not_surrogate c).2
          cases first
          have valid : c.toNat < 0x110000 := by
            have range : c.toNat < 0xD800 ∨ 0xDFFF < c.toNat ∧ c.toNat < 0x110000 := c.valid
            omega
          rw [Bool.eq_false_iff, ne_eq, Utf16.isLowSurrogate_iff]
          omega
      | surrogate | separator | nextLine | null | refused | overflow => cases exact_
    · intro first same
      cases same
      rw [Utf16.isHighSurrogate_iff] at high
      rw [Bool.eq_false_iff, ne_eq, Utf16.isLowSurrogate_iff]
      omega

theorem exact_of_nearly (nearly : ∀ r ∈ readings, r.Nearly) (read : Utf16.decode (readings.flatMap Reading.units) = some text) :
    (∀ r ∈ readings, r.IsExact) ∧ readings.flatMap Reading.value = text := by
  induction readings generalizing text with
  | nil =>
    cases read
    exact ⟨by simp, rfl⟩
  | cons r readings ih =>
    obtain ⟨here, later⟩ := forall_mem_cons.mp nearly
    rw [flatMap_cons] at read
    rcases here with exact_ | ⟨unit, rfl, high⟩
    · cases r with
      | exact value =>
        rw [Reading.units, Utf16.decode_encode_append] at read
        obtain ⟨text', rest, rfl⟩ := Option.map_eq_some_iff.mp read
        obtain ⟨all, same⟩ := ih later rest
        exact ⟨forall_mem_cons.mpr ⟨trivial, all⟩, congrArg (value ++ ·) same⟩
      | surrogate | separator | nextLine | null | refused | overflow => cases exact_
    · obtain ⟨low, first, isLow⟩ := Utf16.low_after_high read high
      rw [head_not_low later low first] at isLow
      cases isLow

theorem value_eq_iff (wellFormed : ∀ r ∈ readings, r.WellFormed) (quiet : ∀ r ∈ readings, r.Quiet)
    (grammatical : ∀ r ∈ readings, r.Grammatical) (read : Utf16.decode (readings.flatMap Reading.units) = some text) :
    readings.flatMap Reading.value = text ↔ ∀ r ∈ readings, r.IsExact := by
  constructor
  · intro same
    have count := Utf16.length_of_decode read
    rw [← same] at count
    have nearly := (characters_flatMap_le wellFormed quiet grammatical).2 count.symm
    exact (exact_of_nearly nearly read).1
  · exact fun exact_ => (exact_of_nearly (fun r listed => .inl (exact_ r listed)) read).2

end TypeScriptRs.Syntax
