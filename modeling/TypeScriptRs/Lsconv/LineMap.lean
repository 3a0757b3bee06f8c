import TypeScriptRs.Lib.BinarySearch
import TypeScriptRs.Lib.Machine
import TypeScriptRs.Lib.Utf8

/-! Line starts of a text: only `\n`, `\r` and `\r\n` end a line. -/
namespace TypeScriptRs.Lsconv
open Machine Utf8

variable {c : Char} {before after : Text}

abbrev TextPos := Int

def toTextPos (offset : Nat) : TextPos := i32 offset

structure LspLineMap where
  lineStarts : List TextPos
  asciiOnly : Bool
  deriving DecidableEq

structure LineScan where
  lineStarts : List TextPos := []
  asciiOnly : Bool := true
  pos : Nat := 0
  lineStart : Nat := 0

def LineScan.endLine (s : LineScan) (pos : Nat) : LineScan :=
  { s with lineStarts := s.lineStarts ++ [toTextPos s.lineStart], pos := pos, lineStart := pos }

def isAscii (c : Char) : Bool := c.toNat < 0x80

def scanLines : Text → LineScan → LineScan
  | [], s => s
  | '\r' :: '\n' :: text, s => scanLines text (s.endLine (s.pos + 2))
  | c :: text, s =>
    if isAscii c then
      if c = '\r' ∨ c = '\n' then scanLines text (s.endLine (s.pos + 1))
      else scanLines text { s with pos := s.pos + 1 }
    else scanLines text { s with pos := s.pos + c.utf8Size, asciiOnly := false }

def computeLspLineStarts (text : Text) : LspLineMap :=
  let s := scanLines text {}
  ⟨s.lineStarts ++ [toTextPos s.lineStart], s.asciiOnly⟩

def LspLineMap.computeIndexOfLineStart (map : LspLineMap) (targetPos : TextPos) : Nat :=
  match BinarySearch.search map.lineStarts targetPos with
  | .ok lineNumber => lineNumber
  | .error lineNumber => if lineNumber > 0 then lineNumber - 1 else lineNumber

example : computeLspLineStarts "a\r\nbé\r\rc".toList = ⟨[0, 3, 7, 8], false⟩ := by decide +kernel

def endsLine (c : Char) (next : Option Char) : Bool := c = '\n' || (c = '\r' && next ≠ some '\n')

/-- Where the lines end that end in the text before a position. -/
def lineEnds : Text → Text → Nat → List Nat
  | [], _, _ => []
  | c :: before, after, pos =>
    if endsLine c (before ++ after).head? then
      (pos + c.utf8Size) :: lineEnds before after (pos + c.utf8Size)
    else lineEnds before after (pos + c.utf8Size)

theorem lineEnds_append (first second after : Text) (pos : Nat) : lineEnds (first ++ second) after pos =
    lineEnds first (second ++ after) pos ++ lineEnds second after (pos + bytes first) := by
  induction first generalizing pos with
  | nil => simp [lineEnds]
  | cons c first ih =>
    have later := ih (pos + c.utf8Size)
    simp only [List.cons_append, lineEnds, List.append_assoc, bytes_cons, later, Nat.add_assoc]
    split
    · rfl
    · rfl

theorem lineEnds_bounds (before after : Text) (pos : Nat) :
    ∀ e ∈ lineEnds before after pos, pos < e ∧ e ≤ pos + bytes before := by
  induction before generalizing pos with
  | nil => simp [lineEnds]
  | cons c before ih =>
    have size := c.utf8Size_pos
    intro e listed
    have later : e ∈ lineEnds before after (pos + c.utf8Size) → pos < e ∧ e ≤ pos + bytes (c :: before) := by
      intro there
      have bounds := ih (pos + c.utf8Size) e there
      rw [bytes_cons]
      omega
    rw [lineEnds] at listed
    split at listed
    · rcases List.mem_cons.mp listed with rfl | there
      · rw [bytes_cons]
        omega
      · exact later there
    · exact later listed

theorem isAscii_utf8Size (ascii : isAscii c = true) : c.utf8Size = 1 := by
  have small : c.toNat < 0x80 := of_decide_eq_true ascii
  have bound : c.val ≤ 0x7f := by
    rw [UInt32.le_iff_toNat_le]
    exact Nat.lt_succ_iff.mp small
  simp [Char.utf8Size, bound]

theorem lineEnds_ends (pos : Nat) (ends : endsLine c (before ++ after).head? = true) :
    lineEnds (c :: before) after pos = (pos + c.utf8Size) :: lineEnds before after (pos + c.utf8Size) := by
  rw [lineEnds, if_pos ends]

theorem lineEnds_goes (pos : Nat) (goes : endsLine c (before ++ after).head? = false) :
    lineEnds (c :: before) after pos = lineEnds before after (pos + c.utf8Size) := by
  rw [lineEnds, goes]
  rfl

theorem scanLines_eq (text : Text) (s : LineScan) : (scanLines text s).lineStarts ++ [toTextPos (scanLines text s).lineStart] =
      s.lineStarts ++ toTextPos s.lineStart :: (lineEnds text [] s.pos).map toTextPos ∧
      (scanLines text s).asciiOnly = (s.asciiOnly && text.all isAscii) := by
  fun_induction scanLines text s with
  | case1 s => simp [lineEnds]
  | case2 text s ih =>
    have pair : lineEnds ('\r' :: '\n' :: text) [] s.pos = (s.pos + 2) :: lineEnds text [] (s.pos + 2) := by
      rw [lineEnds_goes _ (by simp [endsLine]), lineEnds_ends _ (by simp [endsLine])]
      rfl
    rw [ih.1, ih.2, pair]
    simp [LineScan.endLine, isAscii]
  | case3 c text s notPair ascii ends ih =>
    have ended : endsLine c (text ++ []).head? = true := by
      rcases ends with rfl | rfl
      · cases text with
        | nil => simp [endsLine]
        | cons d text =>
          have other : d ≠ '\n' := by
            rintro rfl
            exact notPair text rfl rfl
          simp [endsLine, other]
      · simp [endsLine]
    rw [ih.1, ih.2, lineEnds_ends _ ended, isAscii_utf8Size ascii]
    simp [LineScan.endLine, ascii]
  | case4 c text s notPair ascii other ih =>
    have goes : endsLine c (text ++ []).head? = false := by
      simp [endsLine, not_or.mp other]
    rw [ih.1, ih.2, lineEnds_goes _ goes, isAscii_utf8Size ascii]
    simp [ascii]
  | case5 c text s notPair wide ih =>
    have other : c ≠ '\r' ∧ c ≠ '\n' := by
      constructor
      · rintro rfl
        exact wide (by decide)
      · rintro rfl
        exact wide (by decide)
    have goes : endsLine c (text ++ []).head? = false := by
      simp [endsLine, other]
    rw [ih.1, ih.2, lineEnds_goes _ goes]
    simp [wide]

theorem computeLspLineStarts_eq (text : Text) :
    computeLspLineStarts text = ⟨(0 :: lineEnds text [] 0).map toTextPos, text.all isAscii⟩ := by
  obtain ⟨starts, ascii⟩ := scanLines_eq text {}
  unfold computeLspLineStarts
  simp only [starts, ascii]
  simp

end TypeScriptRs.Lsconv
