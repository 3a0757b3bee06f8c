import TypeScriptRs.Lib.Machine
import TypeScriptRs.Lib.Utf8

/-! The writer of the printer, which counts lines as chunks are written. -/
namespace TypeScriptRs.Printer
open Machine Utf8

def isLineBreak (c : Char) : Bool := c = '\n' || c = '\r' || c = '\u2028' || c = '\u2029'

/-- The scan from a byte position on, in a line that starts at the given one. -/
def ecmaLineStartsFrom : Text → Nat → Nat → List Nat
  | [], _, lineStart => [lineStart]
  | '\r' :: '\n' :: text, pos, lineStart => lineStart :: ecmaLineStartsFrom text (pos + 2) (pos + 2)
  | c :: text, pos, lineStart =>
    if c.toNat < 0x80 then
      if c = '\r' ∨ c = '\n' then lineStart :: ecmaLineStartsFrom text (pos + 1) (pos + 1)
      else ecmaLineStartsFrom text (pos + 1) lineStart
    else if isLineBreak c then
      lineStart :: ecmaLineStartsFrom text (pos + c.utf8Size) (pos + c.utf8Size)
    else ecmaLineStartsFrom text (pos + c.utf8Size) lineStart

def computeEcmaLineStartsSeq (text : Text) : List Nat := ecmaLineStartsFrom text 0 0

/-- The length from a byte index on: one unit for each byte until the first byte that is not ASCII. -/
def utf16LenFrom : Text → Nat → Int
  | [], i => i32 i
  | c :: text, i =>
    if c.toNat < 0x80 then utf16LenFrom text (i + 1)
    else (c :: text).foldl (fun n ch => i32 (n + utf16Size ch)) (i32 i)

def utf16Len (s : Text) : Int := utf16LenFrom s 0

def getIndentString (indent indentSize : Int) : Option Text :=
  if indent = 0 then some []
  else
    let width := i32 (indent * indentSize)
    if width < 0 then none else some (List.replicate width.toNat ' ')

structure TextWriter where
  newLine : Text
  indentSize : Int
  builder : Text
  lastWritten : Text
  indent : Int
  lineStart : Bool
  lineCount : Int
  linePos : Nat
  hasTrailingCommentState : Bool
deriving DecidableEq

namespace TextWriter

def clear (w : TextWriter) : TextWriter := ⟨w.newLine, w.indentSize, [], [], 0, true, 0, 0, false⟩

def newWithIndentSize (newLine : Text) (indentSize : Int) : TextWriter :=
  ⟨newLine, indentSize, [], [], 0, true, 0, 0, false⟩

def updateLineCountAndPosFor (w : TextWriter) (s : Text) : TextWriter :=
  let lines := (computeEcmaLineStartsSeq s).foldl (fun lines lineStart => (i32 (lines.1 + 1), lineStart)) (0, 0)
  let count := lines.1
  let lastLineStart := lines.2
  if count > 1 then
    let curLen := bytes w.builder
    let linePos := curLen - bytes s + lastLineStart
    { w with lineCount := i32 (w.lineCount + i32 (count - 1)), linePos, lineStart := linePos == curLen }
  else { w with lineStart := false }

def writeText (w : TextWriter) (s : Text) : Option TextWriter :=
  if s ≠ [] then do
    let w ←
      if w.lineStart then do
        let indentation ← getIndentString w.indent w.indentSize
        pure { w with builder := w.builder ++ indentation, lineStart := false }
      else pure w
    return { w with builder := w.builder ++ s, lastWritten := s }.updateLineCountAndPosFor s
  else w

def writeLineRaw (w : TextWriter) : TextWriter :=
  let builder := w.builder ++ w.newLine
  { w with
    builder
    lastWritten := w.newLine
    lineCount := i32 (w.lineCount + 1)
    linePos := bytes builder
    lineStart := true
    hasTrailingCommentState := false }

def write (w : TextWriter) (s : Text) : Option TextWriter :=
  (if s ≠ [] then { w with hasTrailingCommentState := false } else w).writeText s

def writeLine (w : TextWriter) : TextWriter := if !w.lineStart then w.writeLineRaw else w

def increaseIndent (w : TextWriter) : TextWriter := { w with indent := i32 (w.indent + 1) }

def decreaseIndent (w : TextWriter) : TextWriter := { w with indent := i32 (w.indent - 1) }

def rawWrite (w : TextWriter) (s : Text) : TextWriter :=
  (if s ≠ [] then { w with builder := w.builder ++ s, lastWritten := s, hasTrailingCommentState := false }
    else w).updateLineCountAndPosFor s

def string (w : TextWriter) : Text := w.builder

def getTextPos (w : TextWriter) : Int := i32 (bytes w.builder)

def getLine (w : TextWriter) : Int := w.lineCount

def getColumn (w : TextWriter) : Option Int :=
  if w.lineStart then i32 (w.indent * w.indentSize) else (dropBytes w.builder w.linePos).map utf16Len

end TextWriter

def defaultIndentSize : Int := 4

def newTextWriter (newLine : Text) (indentSize : Int) : TextWriter :=
  (TextWriter.newWithIndentSize newLine (if indentSize ≤ 0 then defaultIndentSize else indentSize)).clear

/-- The calls of an emitter, in the order in which it makes them. -/
inductive Call where
  | write (s : Text)
  | writeLine
  | rawWrite (s : Text)
  | increaseIndent
  | decreaseIndent
deriving DecidableEq

def TextWriter.call (w : TextWriter) : Call → Option TextWriter
  | .write s => w.write s
  | .writeLine => some w.writeLine
  | .rawWrite s => some (w.rawWrite s)
  | .increaseIndent => some w.increaseIndent
  | .decreaseIndent => some w.decreaseIndent

end TypeScriptRs.Printer
