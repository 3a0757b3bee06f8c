import TypeScriptRs.Lsconv.LineMap

/-! Compiler positions and protocol positions of a text, both ways. -/
namespace TypeScriptRs.Lsconv
open Machine Utf8

inductive PositionEncodingKind where
  | utf8
  | utf16
  | utf32
  deriving DecidableEq

structure Position where
  line : Nat
  character : Nat
  deriving DecidableEq

structure Script where
  fileName : String
  text : Text

structure Converters where
  getLineMap : String → LspLineMap
  positionEncoding : PositionEncodingKind

/-- The casts between positions and the unsigned words of an index and of the protocol. -/
def toUsize (position : TextPos) : Nat := (position % 2 ^ 64).toNat

def toU32 (position : TextPos) : Nat := (position % 2 ^ 32).toNat

/-- The scan of a line for the character at a number of UTF-16 code units. -/
def scanUtf16 (text : Text) (ch : TextPos) (stop : Nat) : Nat → TextPos → Nat → Outcome Nat
  | 0, _, pos => .ok pos
  | fuel + 1, utf16Char, pos =>
    if pos < stop then
      match dropBytes text pos with
      | none => .panic "byte index is not a char boundary"
      | some rest =>
        let r := rest.headD (Char.ofNat 0)
        if i32 (utf16Char + utf16Size r) > ch then .ok pos
        else scanUtf16 text ch stop fuel (i32 (utf16Char + utf16Size r)) (pos + r.utf8Size)
    else .ok pos

def Converters.lineAndCharacterToPosition (converters : Converters) (script : Script) (at_ : Position) :
    Outcome TextPos :=
  let lineMap := converters.getLineMap script.fileName
  let line := toTextPos at_.line
  let ch := toTextPos at_.character
  let textLen := toTextPos (bytes script.text)
  if toUsize line ≥ lineMap.lineStarts.length then .ok textLen
  else
    let start := lineMap.lineStarts.getD (toUsize line) 0
    let lineEnd := if toUsize line + 1 < lineMap.lineStarts.length then lineMap.lineStarts.getD (toUsize line + 1) 0
      else textLen
    if lineMap.asciiOnly = true ∨ converters.positionEncoding = .utf8 then .ok (max start (min (i32 (start + ch)) lineEnd))
    else do
      -- Every turn moves on by at least a byte.
      let pos ← scanUtf16 script.text ch (toUsize lineEnd) (toUsize lineEnd) 0 (toUsize start)
      pure (toTextPos pos)

def Converters.positionToLineAndCharacter (converters : Converters) (script : Script) (position : TextPos) :
    Outcome Position :=
  let position := max 0 (min position (toTextPos (bytes script.text)))
  let lineMap := converters.getLineMap script.fileName
  let line := lineMap.computeIndexOfLineStart position
  match lineMap.lineStarts[line]? with
  | none => .panic "index out of bounds"
  | some start =>
    if lineMap.asciiOnly = true ∨ converters.positionEncoding = .utf8 then .ok ⟨line % 2 ^ 32, toU32 (i32 (position - start))⟩
    else
      match slice script.text (toUsize start) (toUsize position) with
      | none => .panic "byte index is not a char boundary"
      | some chars =>
        .ok ⟨line % 2 ^ 32, toU32 (chars.foldl (fun sum r => i32 (sum + utf16Size r)) 0)⟩

def PositionEncodingKind.units : PositionEncodingKind → Char → Nat
  | .utf8, c => c.utf8Size
  | .utf16, c => utf16Size c
  | .utf32, _ => 1

def unitsOf (units : Char → Nat) (text : Text) : Nat := (text.map units).sum

/-- Line and character between two parts of a text, counted from a line and a character on:
every end of a line starts the next one, anything else adds its code units. -/
def countFrom (units : Char → Nat) : Text → Text → Position → Position
  | [], _, at_ => at_
  | c :: before, after, at_ =>
    if endsLine c (before ++ after).head? then countFrom units before after ⟨at_.line + 1, 0⟩
    else countFrom units before after ⟨at_.line, at_.character + units c⟩

theorem countFrom_eq (units : Char → Nat) (before after current : Text) (pos start line : Nat)
    (here : start + bytes current = pos) :
    ∃ done rest, current ++ before = done ++ rest ∧
      start + bytes done = (lineEnds before after pos).getLastD start ∧
      countFrom units before after ⟨line, unitsOf units current⟩ =
        ⟨line + (lineEnds before after pos).length, unitsOf units rest⟩ := by
  induction before generalizing current pos start line with
  | nil => exact ⟨[], current, by simp, by simp [lineEnds], by simp [countFrom, lineEnds]⟩
  | cons c before ih =>
    cases ends : endsLine c (before ++ after).head? with
    | true =>
      obtain ⟨done, rest, shape, last, count⟩ := ih [] (pos + c.utf8Size) (pos + c.utf8Size) (line + 1) rfl
      refine ⟨current ++ c :: done, rest, ?_, ?_, ?_⟩
      · simp only [List.nil_append] at shape
        simp [shape]
      · rw [lineEnds_ends pos ends, List.getLastD_cons, ← last, bytes_append, bytes_cons]
        omega
      rw [countFrom, ends, lineEnds_ends pos ends]
      simp only [if_true, List.length_cons]
      rw [show unitsOf units [] = 0 from rfl] at count
      rw [count]
      congr 1
      omega
    | false =>
      have along : start + bytes (current ++ [c]) = pos + c.utf8Size := by
        simp only [bytes_append, bytes_cons, bytes_nil]
        omega
      obtain ⟨done, rest, shape, last, count⟩ := ih (current ++ [c]) (pos + c.utf8Size) start line along
      refine ⟨done, rest, ?_, ?_, ?_⟩
      · simpa using shape
      · rw [lineEnds_goes pos ends, last]
      · rw [countFrom, ends, lineEnds_goes pos ends, ← count]
        simp [unitsOf]

end TypeScriptRs.Lsconv
