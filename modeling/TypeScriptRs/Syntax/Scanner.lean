import Mathlib.Data.Finset.Insert
import TypeScriptRs.Lib.Machine
import TypeScriptRs.Lib.Utf8Bytes

/-! The scanner on string literals, a byte at a time. -/
namespace TypeScriptRs.Syntax
open Utf8 Machine

inductive Message
  | unterminatedStringLiteral | unexpectedEndOfText | hexadecimalDigitExpected | escapeSequenceIsNotAllowed
  | decimalEscapeSequencesAreNotAllowedInACharacterClass | octalEscapeSequencesAreNotAllowed
  | octalEscapeSequencesAreNotAllowedInACharacterClass | unicodeEscapeSequencesAreOnlyAvailableWithTheFlag
  | extendedUnicodeEscapeValueMustBeInRange | unterminatedUnicodeEscapeSequence | thisCharacterCannotBeEscaped
  deriving DecidableEq

structure ScannerDiagnostic where
  message : Message
  start : Nat
  length : Nat
  args : List Text
  deriving DecidableEq

inductive TokenFlag
  | unterminated | singleQuote | hexEscape | unicodeEscape | extendedUnicodeEscape | containsInvalidEscape
  deriving DecidableEq

inductive ScannerTokenValue
  | none
  | sourceRange (start stop : Nat)
  | owned (value : Text)
  deriving DecidableEq

structure Scanner where
  text : Text
  pos : Nat
  tokenValue : ScannerTokenValue
  tokenFlags : Finset TokenFlag
  diagnostics : List ScannerDiagnostic
  deriving DecidableEq

structure EscapeSequenceScanningFlags where
  string : Bool
  reportErrors : Bool
  regularExpression : Bool
  annexB : Bool
  anyUnicodeMode : Bool
  atomEscape : Bool

def EscapeSequenceScanningFlags.reportInvalidEscapeErrors (flags : EscapeSequenceScanningFlags) : Bool :=
  flags.regularExpression || flags.reportErrors

def EscapeSequenceScanningFlags.allowExtendedUnicodeEscape (flags : EscapeSequenceScanningFlags) : Bool :=
  flags.string || flags.anyUnicodeMode

def EscapeSequenceScanningFlags.ofString : EscapeSequenceScanningFlags := ⟨true, true, false, false, false, false⟩

def hexValue (c : Char) : Option Nat :=
  if '0' ≤ c ∧ c ≤ '9' then some (c.toNat - 48)
  else if 'a' ≤ c ∧ c ≤ 'f' then some (c.toNat - 87)
  else if 'A' ≤ c ∧ c ≤ 'F' then some (c.toNat - 55)
  else none

def charFromU32 (code : Nat) : Option Char := if code.isValidChar then some (Char.ofNat code) else none

def codePointIsHighSurrogate (code : Nat) : Bool := 0xD800 ≤ code ∧ code ≤ 0xDBFF

def codePointIsLowSurrogate (code : Nat) : Bool := 0xDC00 ≤ code ∧ code ≤ 0xDFFF

def surrogatePairToCodepoint (high low : Nat) : Nat := (high - 0xD800) * 0x400 + (low - 0xDC00) + 0x10000

def isHexDigit (c : Char) : Bool := (hexValue c).isSome

def isOctalDigit (c : Char) : Bool := '0' ≤ c && c ≤ '7'

/-- The number that digits stand for, if it fits into 32 bits. -/
def u32FromStrRadix (digits : Text) (radix : Nat) : Option Nat :=
  let number := digits.foldl (fun n digit => n * radix + (hexValue digit).getD 0) 0
  if digits ≠ [] ∧ (∀ digit ∈ digits, (hexValue digit).any (· < radix)) ∧ number < 2 ^ 32 then some number else none

def paddedHex (code : Nat) : Text :=
  let digits := Nat.toDigits 16 code
  List.replicate (2 - digits.length) '0' ++ digits

namespace Scanner

section
variable (s : Scanner)

def charAt (offset : Nat) : Char := ((encoded s.text)[s.pos + offset]?.map fun byte => Char.ofNat byte.toNat).getD '\x00'

def char : Char := s.charAt 0

def charAndSize : Char × Nat :=
  match (encoded s.text)[s.pos]? with
  | none => ('\x00', 0)
  | some byte =>
    if byte < 0x80 then (Char.ofNat byte.toNat, 1)
    else
      match (dropBytes s.text s.pos).bind List.head? with
      | none => ('\x00', 0)
      | some c => (c, c.utf8Size)

def cut (start stop : Nat) : Outcome Text :=
  match slice s.text start stop with
  | some text => .ok text
  | none => .panic "byte index is not a char boundary"

def move (pos : Nat) : Scanner := { s with pos }

def flag (tokenFlag : TokenFlag) : Scanner := { s with tokenFlags := insert tokenFlag s.tokenFlags }

def errorAt (message : Message) (start length : Nat) (args : List Text) : Scanner :=
  { s with diagnostics := s.diagnostics ++ [⟨message, start, length, args⟩] }

def tokenValueText : Option Text :=
  match s.tokenValue with
  | .none => some []
  | .sourceRange start stop => slice s.text start stop
  | .owned value => some value
end

section
/-- The loop over the digits. No separators are allowed between them here. -/
def hexDigits (minCount : Nat) (scanAsManyAsPossible : Bool) : Nat → Nat → Scanner → Nat × Scanner
  | 0, digitCount, s => (digitCount, s)
  | fuel + 1, digitCount, s =>
    if (digitCount < minCount || scanAsManyAsPossible) && isHexDigit s.char then
      hexDigits minCount scanAsManyAsPossible fuel (digitCount + 1) (s.move (s.pos + 1))
    else (digitCount, s)

def scanHexDigits (minCount : Nat) (scanAsManyAsPossible : Bool) (s : Scanner) : Outcome (Text × Scanner) :=
  let (digitCount, after) := hexDigits minCount scanAsManyAsPossible (bytes s.text - s.pos) 0 s
  if digitCount < minCount then .ok ([], after)
  else do
    let digits ← after.cut s.pos after.pos
    pure (digits.map Char.toLower, after)

def closeExtendedEscape (shouldEmitInvalidEscapeError : Bool) (start hexValue : Nat) (s : Scanner) : Option Nat × Scanner :=
  let tooLarge := 0x10FFFF < hexValue
  let s :=
    if tooLarge ∧ shouldEmitInvalidEscapeError then
      s.errorAt .extendedUnicodeEscapeValueMustBeInRange (start + 1) (s.pos - (start + 1)) []
    else s
  let (isInvalidExtendedEscape, s) :=
    if bytes s.text ≤ s.pos then
      (true, if shouldEmitInvalidEscapeError then s.errorAt .unexpectedEndOfText s.pos 0 [] else s)
    else if s.char = '\x7d' then (false, s.move (s.pos + 1))
    else (true, if shouldEmitInvalidEscapeError then s.errorAt .unterminatedUnicodeEscapeSequence s.pos 0 [] else s)
  if tooLarge ∨ isInvalidExtendedEscape then (none, s.flag .containsInvalidEscape)
  else (some hexValue, s.flag .extendedUnicodeEscape)

def scanUnicodeEscape (shouldEmitInvalidEscapeError : Bool) (s : Scanner) : Outcome (Option Nat × Scanner) :=
  let s := s.move (s.pos + 2)
  let start := s.pos
  let extended := s.char = '\x7b'
  do
    let (hexDigits, s) ←
      if extended then scanHexDigits 1 true (s.move (s.pos + 1)) else scanHexDigits 4 false (s.flag .unicodeEscape)
    if hexDigits = [] then
      let s := s.flag .containsInvalidEscape
      pure (none, if shouldEmitInvalidEscapeError then s.errorAt .hexadecimalDigitExpected s.pos 0 [] else s)
    else
      match u32FromStrRadix hexDigits 16 with
      | none => pure (none, s.flag .containsInvalidEscape)
      | some hexValue =>
        pure (if extended then s.closeExtendedEscape shouldEmitInvalidEscapeError start hexValue else (some hexValue, s))

variable (flags : EscapeSequenceScanningFlags)

def scanOctalEscapeTail (start : Nat) (ch : Char) (s : Scanner) : Outcome (Text × Scanner) :=
  let s := if ('0' ≤ ch ∧ ch ≤ '3') ∧ isOctalDigit s.char then s.move (s.pos + 1) else s
  let s := if isOctalDigit s.char then s.move (s.pos + 1) else s
  let s := s.flag .containsInvalidEscape
  if flags.reportInvalidEscapeErrors then do
    let digits ← s.cut (start + 1) s.pos
    let code := (u32FromStrRadix digits 8).getD 0
    let message :=
      if flags.regularExpression ∧ ¬flags.atomEscape ∧ ch ≠ '0' then Message.octalEscapeSequencesAreNotAllowedInACharacterClass
      else Message.octalEscapeSequencesAreNotAllowed
    pure ([(charFromU32 code).getD '\x00'], s.errorAt message start (s.pos - start) ["\\x".toList ++ paddedHex code])
  else do
    let text ← s.cut start s.pos
    pure (text, s)

def scanDecimalEscape (start : Nat) (ch : Char) (s : Scanner) : Outcome (Text × Scanner) :=
  let s := s.flag .containsInvalidEscape
  if flags.reportInvalidEscapeErrors then
    if flags.regularExpression ∧ ¬flags.atomEscape then
      .ok ([ch], s.errorAt .decimalEscapeSequencesAreNotAllowedInACharacterClass start (s.pos - start) [])
    else do
      let text ← s.cut start s.pos
      pure ([ch], s.errorAt .escapeSequenceIsNotAllowed start (s.pos - start) [text])
  else do
    let text ← s.cut start s.pos
    pure (text, s)

def lossySurrogate : Text := ['\uFFFD', '\uFFFD', '\uFFFD']

def charOrText (start code : Nat) (s : Scanner) : Outcome (Text × Scanner) :=
  match charFromU32 code with
  | some c => .ok ([c], s)
  | none => do
    let text ← s.cut start s.pos
    pure (text, s)

/-- An escape of four digits, and the one after it if both make up a pair of surrogates. -/
def scanSurrogate (start codePoint : Nat) (s : Scanner) : Outcome (Text × Scanner) :=
  let single : Text := [(charFromU32 codePoint).getD '\uFFFD']
  if codePointIsHighSurrogate codePoint ∧ (¬flags.regularExpression ∨ flags.anyUnicodeMode) ∧ s.char = '\\' ∧ s.charAt 1 = 'u' ∧
      s.charAt 2 ≠ '\x7b' then do
    let (nextCodePoint, after) ← s.scanUnicodeEscape flags.reportInvalidEscapeErrors
    match nextCodePoint.filter codePointIsLowSurrogate with
    | some low => after.charOrText start (surrogatePairToCodepoint codePoint low)
    | none => pure (if flags.regularExpression then lossySurrogate else single, after.move s.pos)
  else if (codePointIsHighSurrogate codePoint ∨ codePointIsLowSurrogate codePoint) ∧ flags.regularExpression then
    .ok (lossySurrogate, s)
  else .ok (single, s)

def scanEscapedUnicode (start : Nat) (s : Scanner) : Outcome (Text × Scanner) :=
  let extended := s.char = '\x7b'
  do
    let (codePoint, s) ← (s.move (s.pos - 2)).scanUnicodeEscape flags.reportInvalidEscapeErrors
    let s :=
      if extended ∧ ¬flags.allowExtendedUnicodeEscape then
        let s := s.flag .containsInvalidEscape
        if flags.reportInvalidEscapeErrors then
          s.errorAt .unicodeEscapeSequencesAreOnlyAvailableWithTheFlag start (s.pos - start) []
        else s
      else s
    match codePoint with
    | none => do
      let text ← s.cut start s.pos
      pure (text, s)
    | some codePoint =>
      if extended then pure ([(charFromU32 codePoint).getD '\uFFFD'], s) else scanSurrogate flags start codePoint s

def hexPair (stop : Nat) : Nat → Scanner → Bool × Scanner
  | 0, s => (true, s)
  | fuel + 1, s =>
    if s.pos < stop then if isHexDigit s.char then hexPair stop fuel (s.move (s.pos + 1)) else (false, s) else (true, s)

def scanEscapedHex (start : Nat) (s : Scanner) : Outcome (Text × Scanner) :=
  let (both, s) := hexPair (start + 4) (start + 4 - s.pos) s
  if both then do
    let digits ← s.cut (start + 2) s.pos
    pure ([(charFromU32 ((u32FromStrRadix digits 16).getD 0)).getD '\x00'], s.flag .hexEscape)
  else do
    let s := s.flag .containsInvalidEscape
    let s := if flags.reportInvalidEscapeErrors then s.errorAt .hexadecimalDigitExpected s.pos 0 [] else s
    let text ← s.cut start s.pos
    pure (text, s)

def singleEscapes : List (Char × Char) :=
  [('b', '\x08'), ('t', '\t'), ('n', '\n'), ('v', '\x0b'), ('f', '\x0c'), ('r', '\r'), ('\'', '\''), ('"', '"')]

/-- The characters are compared with the bytes of the text; of two bytes it is known what they stand for. -/
def scanEscapeSequence (isIdentifierPart : Char → Bool) (s : Scanner) : Outcome (Text × Scanner) :=
  let start := s.pos
  let s := s.move (s.pos + 1)
  let ch := s.char
  if ch = '\x00' then .ok ([], s.errorAt .unexpectedEndOfText s.pos 0 [])
  else
    let s := s.move (s.pos + 1)
    if ch = '0' then if s.char.isDigit then s.scanOctalEscapeTail flags start ch else .ok (['\x00'], s)
    else if '1' ≤ ch ∧ ch ≤ '7' then s.scanOctalEscapeTail flags start ch
    else if ch = '8' ∨ ch = '9' then s.scanDecimalEscape flags start ch
    else
      match singleEscapes.lookup ch with
      | some escaped => .ok ([escaped], s)
      | none =>
        if ch = 'u' then s.scanEscapedUnicode flags start
        else if ch = 'x' then s.scanEscapedHex flags start
        else if ch = '\r' then .ok ([], if s.char = '\n' then s.move (s.pos + 1) else s)
        else if ch = '\n' then .ok ([], s)
        else if ch = '\u00e2' ∧ s.char = '\u0080' then
          if s.charAt 1 = '\u00a8' ∨ s.charAt 1 = '\u00a9' then .ok (['\u00e2', '\uFFFD', '\uFFFD'], s.move (s.pos + 2))
          else .ok ([ch], s)
        else if ch = '\u00c2' ∧ s.char = '\u0085' then .ok (['\u00c2', '\uFFFD'], s.move (s.pos + 1))
        else if flags.anyUnicodeMode ∨ flags.regularExpression ∧ ¬flags.annexB ∧ isIdentifierPart ch then
          .ok ([ch], s.errorAt .thisCharacterCannotBeEscaped (s.pos - 2) 2 [])
        else .ok ([ch], s)
end

variable (isIdentifierPart : Char → Bool)

def collect (result : Option Text) (start : Nat) (s : Scanner) : Outcome (Option Text) :=
  match result with
  | none => .ok none
  | some result => do
    let text ← s.cut start s.pos
    pure (some (result ++ text))

def setTokenValue (result : Option Text) (start stop : Nat) (s : Scanner) : Scanner :=
  { s with tokenValue := match result with
      | none => .sourceRange start stop
      | some result => .owned result }

def unterminatedString (s : Scanner) : Scanner := (s.flag .unterminated).errorAt .unterminatedStringLiteral s.pos 0 []

def scanStringLoop (jsxAttributeString : Bool) (quote : Char) (valueStart : Nat) :
    Nat → Option Text → Nat → Scanner → Outcome Scanner
  | 0, _, _, s => .ok s
  | fuel + 1, result, start, s =>
    let (ch, size) := s.charAndSize
    if size = 0 then do
      let result ← s.collect result start
      pure (s.unterminatedString.setTokenValue result valueStart s.pos)
    else if ch = quote then do
      let result ← s.collect result start
      pure ((s.move (s.pos + size)).setTokenValue result valueStart s.pos)
    else if ch = '\\' ∧ ¬jsxAttributeString then do
      let result ← s.collect (some (result.getD [])) start
      let (escaped, s) ← s.scanEscapeSequence .ofString isIdentifierPart
      scanStringLoop jsxAttributeString quote valueStart fuel (some (result.getD [] ++ escaped)) s.pos s
    else if (ch = '\n' ∨ ch = '\r') ∧ ¬jsxAttributeString then do
      let result ← s.collect result start
      pure (s.unterminatedString.setTokenValue result valueStart s.pos)
    else scanStringLoop jsxAttributeString quote valueStart fuel result start (s.move (s.pos + size))

def scanStringFrom (jsxAttributeString : Bool) (quote : Char) (s : Scanner) : Outcome Scanner :=
  let valueStart := s.pos
  let loop := scanStringLoop isIdentifierPart jsxAttributeString quote valueStart (bytes s.text + 1 - s.pos) none valueStart s
  do
    let rest ← s.cut s.pos (bytes s.text)
    if quote ∈ rest then
      let literal := rest.takeWhile (· ≠ quote)
      let relativeEnd := bytes literal
      let closed := (s.move (s.pos + relativeEnd + quote.utf8Size)).setTokenValue none valueStart (s.pos + relativeEnd)
      if relativeEnd = 0 then pure closed
      else if jsxAttributeString ∨ '\r' ∉ literal ∧ '\n' ∉ literal ∧ '\\' ∉ literal then pure closed
      else loop
    else loop

def scanStringAndSetTokenValue (jsxAttributeString : Bool) (s : Scanner) : Outcome Scanner :=
  let quote := s.char
  let s := if quote = '\'' then s.flag .singleQuote else s
  scanStringFrom isIdentifierPart jsxAttributeString quote (s.move (s.pos + quote.utf8Size))

end Scanner

end TypeScriptRs.Syntax
