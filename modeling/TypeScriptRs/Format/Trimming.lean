import Mathlib.Data.List.DropRight
import TypeScriptRs.Lib.Utf8Bytes
import TypeScriptRs.Lsconv.LineMap
import TypeScriptRs.Printer.Positions
import TypeScriptRs.Syntax.Token

/-! The white space at the ends of lines, which the formatter deletes. -/
namespace TypeScriptRs.Format
open Utf8 Machine Syntax List
open Lsconv (TextPos)
open Printer (isLineBreak ecmaLineStartsFrom computeEcmaLineStartsSeq)

def isWhiteSpaceSingleLine (c : Char) : Bool :=
  c ∈ [' ', '\t', '\u000B', '\u000C', '\u0085', '\u00A0', '\u1680', '\u2000', '\u2001', '\u2002', '\u2003', '\u2004', '\u2005',
    '\u2006', '\u2007', '\u2008', '\u2009', '\u200A', '\u200B', '\u202F', '\u205F', '\u3000', '\uFEFF']

section
structure TextRangeWithKind where
  pos : TextPos
  stop : TextPos
  kind : Kind
  deriving DecidableEq

structure TextChange where
  newText : Text
  pos : TextPos
  stop : TextPos
  deriving DecidableEq

def isComment (kind : Kind) : Bool := kind = .singleLineCommentTrivia || kind = .multiLineCommentTrivia

def isTemplateLiteralKind (kind : Kind) : Bool :=
  Kind.noSubstitutionTemplateLiteral.ctorIdx ≤ kind.ctorIdx && kind.ctorIdx ≤ Kind.templateTail.ctorIdx

def isStringOrRegularExpressionOrTemplateLiteral (kind : Kind) : Bool :=
  kind = .stringLiteral || kind = .regularExpressionLiteral || isTemplateLiteralKind kind

def notBetweenCharacters : String := "byte index is not a char boundary"

def outOfBounds : String := "index out of bounds"

def backOverLineBreaks (text : Text) (start : Nat) : Nat → Nat → Outcome Nat
  | 0, pos => .ok pos
  | fuel + 1, pos =>
    if start ≤ pos then
      match takeBytes text (pos + 1) with
      | none => .panic notBetweenCharacters
      | some front =>
        match front.getLast? with
        | none => .ok pos
        | some c =>
          if !isLineBreak c then .ok pos
          else if pos = 0 then .ok pos
          else backOverLineBreaks text start fuel (pos - c.utf8Size)
    else .ok pos

def getEcmaEndLinePosition (text : Text) (line : Nat) : Outcome Nat :=
  let lineMap := computeEcmaLineStartsSeq text
  if line + 1 = lineMap.length then .ok (bytes text - 1)
  else
    let start := lineMap.getD line 0
    match lineMap[line + 1]? with
    | none => .panic outOfBounds
    | some next => backOverLineBreaks text start next (next - 1)

def backOverWhiteSpace (text : Text) (start : TextPos) : Nat → TextPos → Outcome TextPos
  | 0, pos => .ok pos
  | fuel + 1, pos =>
    if start ≤ pos then
      match dropBytes text pos.toNat with
      | none => .panic notBetweenCharacters
      | some rest =>
        match rest.head? with
        | none => backOverWhiteSpace text start fuel (pos - 1)
        | some c => if isWhiteSpaceSingleLine c then backOverWhiteSpace text start fuel (pos - 1) else .ok pos
    else .ok pos

def getTrailingWhitespaceStartPosition (text : Text) (start stop : TextPos) : Outcome TextPos := do
  let pos ← backOverWhiteSpace text start (stop + 1 - start).toNat stop
  pure (if pos ≠ stop then pos + 1 else -1)

def createTextChangeFromStartLength (start length : TextPos) (newText : Text) : TextChange := ⟨newText, start, start + length⟩

def recordDelete (edits : List TextChange) (start length : TextPos) : List TextChange :=
  if length ≠ 0 then edits ++ [createTextChangeFromStartLength start length []] else edits

def unprotected : TextRangeWithKind := ⟨0, 0, .unknown⟩

def TextRangeWithKind.protects (r : TextRangeWithKind) (lineEndPosition : TextPos) : Bool :=
  r ≠ unprotected && (isComment r.kind || isStringOrRegularExpressionOrTemplateLiteral r.kind) && r.pos ≤ lineEndPosition &&
    lineEndPosition < r.stop

variable (debugAssertions : Bool) (text : Text) (r : TextRangeWithKind)

/-- The assertion that no white space is before the one that is deleted, on the byte before it. -/
def assertNoWhiteSpaceBefore (lineStartPosition whitespaceStart : TextPos) : Outcome Unit :=
  if whitespaceStart ≠ lineStartPosition then
    match (encoded text)[(whitespaceStart - 1).toNat]? with
    | none => .panic outOfBounds
    | some ch =>
      if debugAssertions && isWhiteSpaceSingleLine (Char.ofNat ch.toNat) then .panic "assertion failed" else .ok ()
  else .ok ()

def trimLine (edits : List TextChange) (line : Nat) : Outcome (List TextChange) :=
  match (computeEcmaLineStartsSeq text)[line]? with
  | none => .panic outOfBounds
  | some lineStart => do
    let lineStartPosition := i32 lineStart
    let lineEnd ← getEcmaEndLinePosition text line
    let lineEndPosition := i32 lineEnd
    if r.protects lineEndPosition then pure edits
    else do
      let whitespaceStart ← getTrailingWhitespaceStartPosition text lineStartPosition lineEndPosition
      if whitespaceStart ≠ -1 then do
        let _ ← assertNoWhiteSpaceBefore debugAssertions text lineStartPosition whitespaceStart
        pure (recordDelete edits whitespaceStart (lineEndPosition + 1 - whitespaceStart))
      else pure edits

def trimTrailingWhitespacesForLines (line1 line2 : Nat) (edits : List TextChange) : Outcome (List TextChange) :=
  (List.range' line1 (line2 - line1)).foldlM (trimLine debugAssertions text r) edits
end

section
variable {c : Char}

structure Line where
  content : Text
  ending : Text
  deriving DecidableEq

def Line.text (line : Line) : Text := line.content ++ line.ending

def Line.push (c : Char) : List Line → List Line
  | [] => [⟨[c], []⟩]
  | line :: lines => { line with content := c :: line.content } :: lines

def linesOf : Text → List Line
  | [] => [⟨[], []⟩]
  | '\r' :: '\n' :: text => ⟨[], ['\r', '\n']⟩ :: linesOf text
  | c :: text => if isLineBreak c then ⟨[], [c]⟩ :: linesOf text else Line.push c (linesOf text)

def textOf (lines : List Line) : Text := lines.flatMap Line.text

def IsEnding (ending : Text) : Prop := ending = ['\r', '\n'] ∨ ∃ c, isLineBreak c = true ∧ ending = [c]

variable {text : Text} {lines front back : List Line} {line : Line}

theorem push_ne_nil (c : Char) : Line.push c lines ≠ [] := by cases lines <;> exact cons_ne_nil _ _

theorem linesOf_ne_nil (text : Text) : linesOf text ≠ [] := by
  unfold linesOf
  split
  · exact cons_ne_nil _ _
  · exact cons_ne_nil _ _
  · split
    · exact cons_ne_nil _ _
    · exact push_ne_nil _

@[simp] theorem textOf_cons : textOf (line :: lines) = line.content ++ line.ending ++ textOf lines := rfl

@[simp] theorem textOf_append : textOf (front ++ back) = textOf front ++ textOf back := flatMap_append

theorem textOf_push (c : Char) : textOf (Line.push c lines) = c :: textOf lines := by cases lines <;> rfl

theorem textOf_linesOf (text : Text) : textOf (linesOf text) = text := by
  fun_induction linesOf text with
  | case1 => rfl
  | case2 text ih => rw [textOf_cons, ih]; rfl
  | case3 c text apart breaks ih => rw [textOf_cons, ih]; rfl
  | case4 c text apart other ih => rw [textOf_push, ih]

/-- Lines whose characters end none of them, each but the last one ended. -/
inductive AreLines : List Line → Prop
  | last {content : Text} : (∀ c ∈ content, isLineBreak c = false) → AreLines [⟨content, []⟩]
  | cons {line : Line} {lines : List Line} : (∀ c ∈ line.content, isLineBreak c = false) → IsEnding line.ending → AreLines lines →
    AreLines (line :: lines)

theorem AreLines.push (are : AreLines lines) (other : isLineBreak c = false) : AreLines (Line.push c lines) := by
  cases are with
  | last free => exact .last (forall_mem_cons.mpr ⟨other, free⟩)
  | cons free ending rest => exact .cons (forall_mem_cons.mpr ⟨other, free⟩) ending rest

theorem areLines_linesOf (text : Text) : AreLines (linesOf text) := by
  fun_induction linesOf text with
  | case1 => exact .last (by simp)
  | case2 text ih => exact .cons (by simp) (.inl rfl) ih
  | case3 c text apart breaks ih => exact .cons (by simp) (.inr ⟨c, breaks, rfl⟩) ih
  | case4 c text apart other ih => exact ih.push (Bool.eq_false_of_not_eq_true other)

theorem AreLines.at (are : AreLines (front ++ line :: back)) : (∀ c ∈ line.content, isLineBreak c = false) ∧
    (back = [] → line.ending = []) ∧ (back ≠ [] → IsEnding line.ending) := by
  induction front with
  | nil =>
    cases are with
    | last free => exact ⟨free, fun _ => rfl, fun some_ => absurd rfl some_⟩
    | cons free ending rest =>
      refine ⟨free, fun none => ?_, fun _ => ending⟩
      rw [none] at rest
      cases rest
  | cons first front ih =>
    rw [cons_append] at are
    have rest : AreLines (front ++ line :: back) := by
      generalize shape : front ++ line :: back = lines at are ⊢
      cases are with
      | last free => simp at shape
      | cons free ending rest => exact rest
    exact ih rest

def startsOf : Nat → List Line → List Nat
  | _, [] => []
  | pos, line :: lines => pos :: startsOf (pos + bytes line.text) lines

theorem length_startsOf (pos : Nat) (lines : List Line) : (startsOf pos lines).length = lines.length := by
  induction lines generalizing pos with
  | nil => rfl
  | cons line lines ih => rw [startsOf, length_cons, length_cons, ih]

theorem startsOf_at (pos : Nat) : (startsOf pos (front ++ line :: back))[front.length]? = some (pos + bytes (textOf front)) := by
  induction front generalizing pos with
  | nil => rfl
  | cons first front ih =>
    rw [cons_append, startsOf, length_cons, List.getElem?_cons_succ, ih, textOf_cons, bytes_append, ← Nat.add_assoc]
    rfl

theorem linesOf_break (breaks : isLineBreak c = true) (apart : ∀ rest, c = '\r' → text = '\n' :: rest → False) :
    linesOf (c :: text) = ⟨[], [c]⟩ :: linesOf text := by
  rw [linesOf, if_pos breaks]
  exact apart

theorem linesOf_other (other : isLineBreak c = false) : linesOf (c :: text) = Line.push c (linesOf text) := by
  rw [linesOf, if_neg (Bool.eq_false_iff.mp other)]
  rintro _ rfl
  cases other

theorem startsOf_push {rest : List Line} {starts : List Nat} (pos lineStart : Nat) (shape : Line.push c lines = line :: rest)
    (later : ∀ line' lines', lines = line' :: lines' →
      starts = lineStart :: startsOf (pos + c.utf8Size + bytes line'.text) lines') (some_ : lines ≠ []) :
    starts = lineStart :: startsOf (pos + bytes line.text) rest := by
  cases lines with
  | nil => exact absurd rfl some_
  | cons first lines =>
    cases shape
    rw [later first _ rfl, Nat.add_assoc]
    rfl

theorem ecmaLineStartsFrom_eq (pos lineStart : Nat) (shape : linesOf text = line :: lines) :
    ecmaLineStartsFrom text pos lineStart = lineStart :: startsOf (pos + bytes line.text) lines := by
  have first (text : Text) (pos : Nat) {starts : List Nat} (later : ∀ line lines, linesOf text = line :: lines →
      starts = pos :: startsOf (pos + bytes line.text) lines) : starts = startsOf pos (linesOf text) := by
    cases shape : linesOf text with
    | nil => exact absurd shape (linesOf_ne_nil text)
    | cons line lines => exact later line lines shape
  fun_induction ecmaLineStartsFrom text pos lineStart generalizing line lines with
  | case1 pos lineStart =>
    cases shape
    rfl
  | case2 text pos lineStart ih =>
    cases shape
    rw [first text (pos + 2) fun _ _ => ih]
    rfl
  | case3 c text pos lineStart apart ascii ended ih =>
    rw [linesOf_break ((Printer.isLineBreak_of_ascii ascii).mpr ended) apart] at shape
    cases shape
    rw [first text (pos + 1) fun _ _ => ih, Line.text, nil_append, bytes_cons, Printer.utf8Size_of_ascii ascii]
    rfl
  | case4 c text pos lineStart apart ascii other ih =>
    rw [linesOf_other (Bool.eq_false_iff.mpr fun breaks => other ((Printer.isLineBreak_of_ascii ascii).mp breaks))] at shape
    rw [← Printer.utf8Size_of_ascii ascii] at ih ⊢
    exact startsOf_push pos lineStart shape (fun _ _ => ih) (linesOf_ne_nil text)
  | case5 c text pos lineStart apart wide ended ih =>
    rw [linesOf_break ended apart] at shape
    cases shape
    rw [first text (pos + c.utf8Size) fun _ _ => ih]
    rfl
  | case6 c text pos lineStart apart wide other ih =>
    rw [linesOf_other (Bool.eq_false_iff.mpr other)] at shape
    exact startsOf_push pos lineStart shape (fun _ _ => ih) (linesOf_ne_nil text)

theorem computeEcmaLineStartsSeq_eq (text : Text) : computeEcmaLineStartsSeq text = startsOf 0 (linesOf text) := by
  cases shape : linesOf text with
  | nil => exact absurd shape (linesOf_ne_nil text)
  | cons line lines =>
    have eq := ecmaLineStartsFrom_eq 0 0 shape
    exact eq

theorem isEnding_ne_nil {ending : Text} (is : IsEnding ending) : ending ≠ [] := by
  rcases is with rfl | ⟨c, -, rfl⟩
  · exact cons_ne_nil _ _
  · exact cons_ne_nil _ _

theorem AreLines.before (are : AreLines (front ++ line :: back)) : textOf front = [] ↔ front = [] := by
  cases front with
  | nil => exact iff_of_true rfl rfl
  | cons first front =>
    refine iff_of_false (fun none => ?_) (cons_ne_nil _ _)
    have ending := ((show AreLines ([] ++ first :: (front ++ line :: back)) from are).at.2.2 (by simp))
    rw [textOf_cons, append_eq_nil_iff, append_eq_nil_iff] at none
    exact isEnding_ne_nil ending none.1.2
end

section
variable {before content after : Text} {c : Char} {start fuel pos : Nat}

theorem bytes_pos {text : Text} (some_ : text ≠ []) : 0 < bytes text := by
  obtain ⟨c, rest, rfl⟩ := exists_cons_of_ne_nil some_
  exact Nat.add_pos_left c.utf8Size_pos _

theorem takeBytes_wide (wide : c.utf8Size ≠ 1) (after : Text) : takeBytes (c :: after) 1 = none := by
  have size := c.utf8Size_pos
  rw [takeBytes, if_neg (by omega)]

/-- At the last one of the bytes of a character, the text goes on with that character if it has no other byte. -/
theorem dropBytes_lastByte (before : Text) (c : Char) (after : Text) : dropBytes (before ++ c :: after) (bytes before + (c.utf8Size - 1)) =
    if c.utf8Size = 1 then some (c :: after) else none := by
  have size := c.utf8Size_pos
  rw [dropBytes_add]
  split
  · rename_i one
    rw [one]
    rfl
  · obtain ⟨n, more⟩ := Nat.exists_eq_add_of_le (show 2 ≤ c.utf8Size by omega)
    rw [more, show 2 + n - 1 = n + 1 by omega, dropBytes, if_neg (by omega)]

theorem backOverLineBreaks_below (short : pos < start) : backOverLineBreaks text start fuel pos = .ok pos := by
  cases fuel with
  | zero => rfl
  | succ fuel => rw [backOverLineBreaks, if_neg (Nat.not_le.mpr short)]

theorem backOverLineBreaks_at (inside : start ≤ pos) (here : pos + 1 = bytes (before ++ [c])) :
    backOverLineBreaks (before ++ c :: after) start (fuel + 1) pos =
      if isLineBreak c = true ∧ pos ≠ 0 then backOverLineBreaks (before ++ c :: after) start fuel (pos - c.utf8Size) else .ok pos := by
  have whole : before ++ c :: after = (before ++ [c]) ++ after := by simp
  rw [backOverLineBreaks, if_pos inside, here, whole, takeBytes_append]
  dsimp only
  rw [List.getLast?_concat]
  dsimp only
  cases isLineBreak c with
  | false => rfl
  | true =>
    by_cases first : pos = 0
    · simp [first]
    · simp [first]

/-- From the line break after it, the last byte of a line is found, or the first one of a text that begins with the line break. -/
theorem backOverLineBreaks_last (breaks : isLineBreak c = true) (free : ∀ d ∈ content, isLineBreak d = false) (enough : pos < fuel)
    (here : pos + 1 = bytes (before ++ content) + c.utf8Size) :
    backOverLineBreaks (before ++ content ++ c :: after) (bytes before) fuel pos =
      if before ++ content = [] ∧ c.utf8Size ≠ 1 then .panic notBetweenCharacters else .ok (bytes (before ++ content) - 1) := by
  have size := c.utf8Size_pos
  obtain ⟨fuel, rfl⟩ := Nat.exists_eq_succ_of_ne_zero (Nat.ne_of_gt (Nat.zero_lt_of_lt enough))
  have inside : bytes before ≤ pos := by
    rw [bytes_append] at here
    omega
  rw [Nat.succ_eq_add_one, backOverLineBreaks_at inside (by rw [here, bytes_append _ [c]]; rfl)]
  by_cases none : before ++ content = []
  · rw [none, bytes_nil, Nat.zero_add] at here
    rw [none, bytes_nil]
    by_cases one : c.utf8Size = 1
    · have first : pos = 0 := by omega
      rw [if_neg (by simp [first]), if_neg (by simp [one]), first]
    · obtain ⟨fuel, rfl⟩ := Nat.exists_eq_succ_of_ne_zero (show fuel ≠ 0 by omega)
      have start : bytes before = 0 := by rw [(append_eq_nil_iff.mp none).1, bytes_nil]
      rw [if_pos ⟨breaks, by omega⟩, if_pos ⟨rfl, one⟩, start, show pos - c.utf8Size = 0 by omega, backOverLineBreaks, if_pos (Nat.le_refl _),
        nil_append, takeBytes_wide one]
  have some_ := bytes_pos none
  rw [if_pos ⟨breaks, by omega⟩, if_neg fun both => none both.1, show pos - c.utf8Size = bytes (before ++ content) - 1 by omega]
  rcases eq_nil_or_concat' content with rfl | ⟨content', d, rfl⟩
  · rw [append_nil] at some_ ⊢
    exact backOverLineBreaks_below (Nat.sub_lt some_ Nat.one_pos)
  obtain ⟨fuel, rfl⟩ := Nat.exists_eq_succ_of_ne_zero (show fuel ≠ 0 by omega)
  have other : isLineBreak d = false := free d (by simp)
  have whole : before ++ (content' ++ [d]) ++ c :: after = (before ++ content') ++ d :: (c :: after) := by simp
  have sizeLast := d.utf8Size_pos
  have room : bytes (before ++ (content' ++ [d])) = bytes before + bytes content' + d.utf8Size := by simp [Nat.add_assoc]
  rw [Nat.succ_eq_add_one, whole, backOverLineBreaks_at, other]
  · rfl
  · omega
  · rw [Nat.sub_add_cancel some_, append_assoc]

def Narrow (text : Text) : Prop := ∀ c ∈ text, c.utf8Size = 1

instance (text : Text) : Decidable (Narrow text) := decidableEvery _ text

theorem getEcmaEndLinePosition_eq {text : Text} {front back : List Line} {line : Line} (shape : linesOf text = front ++ line :: back) :
    getEcmaEndLinePosition text front.length =
      if textOf front ++ line.content = [] ∧ ¬Narrow line.ending then .panic notBetweenCharacters
      else .ok (bytes (textOf front ++ line.content) - 1) := by
  have whole := textOf_linesOf text
  have are := areLines_linesOf text
  rw [shape] at whole are
  obtain ⟨free, last, ended⟩ := are.at
  unfold getEcmaEndLinePosition
  dsimp only
  rw [computeEcmaLineStartsSeq_eq, length_startsOf, shape, length_append, length_cons]
  cases back with
  | nil =>
    have ending := last rfl
    have lastLine : front.length + 1 = front.length + (([] : List Line).length + 1) := rfl
    rw [if_pos lastLine, ending, if_neg fun both => both.2 fun _ listed => by cases listed]
    rw [← whole, textOf_append, textOf_cons, ending]
    simp [textOf]
  | cons next back =>
    have start : (startsOf 0 (front ++ line :: next :: back)).getD front.length 0 = bytes (textOf front) := by
      rw [getD_eq_getElem?_getD, startsOf_at, Option.getD_some, Nat.zero_add]
    have stop : (startsOf 0 (front ++ line :: next :: back))[front.length + 1]? =
        some (bytes (textOf front ++ line.content) + bytes line.ending) := by
      have at_ := @startsOf_at (front ++ [line]) back next 0
      rw [append_assoc, length_append, Nat.zero_add, textOf_append] at at_
      rw [show front ++ line :: next :: back = front ++ ([line] ++ next :: back) from rfl]
      rw [show front.length + 1 = front.length + [line].length from rfl, at_, textOf_cons]
      simp [textOf, Nat.add_assoc]
    rw [if_neg (by simp), start, stop]
    dsimp only
    rw [textOf_append, textOf_cons] at whole
    rcases ended (cons_ne_nil _ _) with crlf | ⟨c, breaks, single⟩
    · rw [crlf] at whole ⊢
      have split : text = (textOf front ++ line.content ++ ['\r']) ++ '\n' :: textOf (next :: back) := by rw [← whole]; simp
      have narrow : Narrow ['\r', '\n'] := by decide
      have two : bytes ['\r', '\n'] = 2 := by decide
      have inside : bytes (textOf front) ≤ bytes (textOf front ++ line.content) + 1 := by
        rw [bytes_append]
        omega
      rw [if_neg fun both => both.2 narrow, two, show bytes (textOf front ++ line.content) + 2 - 1 =
        bytes (textOf front ++ line.content) + 1 from rfl, split, backOverLineBreaks_at inside (by simp [bytes_append]; rfl),
        if_pos ⟨rfl, Nat.succ_ne_zero _⟩, append_assoc]
      have return_ := @backOverLineBreaks_last (textOf front) line.content ('\n' :: textOf (next :: back)) '\r'
        (bytes (textOf front ++ line.content) + 1) (bytes (textOf front ++ line.content)) rfl free (Nat.lt_succ_self _) rfl
      exact return_.trans (if_neg fun both => both.2 rfl)
    · rw [single] at whole ⊢
      have split : text = textOf front ++ line.content ++ c :: textOf (next :: back) := by rw [← whole]; simp
      have size := c.utf8Size_pos
      have narrow : Narrow [c] ↔ c.utf8Size = 1 := by simp [Narrow]
      rw [bytes_cons, bytes_nil, Nat.add_zero, split]
      refine (backOverLineBreaks_last breaks free ?_ ?_).trans (if_congr (and_congr_right fun _ => not_congr narrow.symm) rfl rfl)
      · omega
      · omega
end

section
variable {before content after : Text} {c : Char} {fuel : Nat}

/-- The white space at the end and the character before it have one byte each. -/
def Steps (content : Text) : Prop :=
  Narrow (content.rtakeWhile isWhiteSpaceSingleLine) ∧ ∀ c ∈ (content.rdropWhile isWhiteSpaceSingleLine).getLast?, c.utf8Size = 1

instance (content : Text) : Decidable (Steps content) :=
  have : Decidable (∀ c ∈ (content.rdropWhile isWhiteSpaceSingleLine).getLast?, c.utf8Size = 1) := Option.decidableForallMem _
  inferInstanceAs (Decidable (_ ∧ _))

theorem steps_nil : Steps [] := by
  exact ⟨fun _ listed => absurd listed not_mem_nil, fun _ listed => by simp at listed⟩

theorem steps_concat : Steps (content ++ [c]) ↔ c.utf8Size = 1 ∧ (isWhiteSpaceSingleLine c = true → Steps content) := by
  unfold Steps
  rw [rtakeWhile_concat, rdropWhile_concat]
  split
  · rename_i white
    have narrow : Narrow (content.rtakeWhile isWhiteSpaceSingleLine ++ [c]) ↔
        Narrow (content.rtakeWhile isWhiteSpaceSingleLine) ∧ c.utf8Size = 1 := by
      unfold Narrow
      rw [forall_mem_append, forall_mem_singleton]
    rw [narrow, and_right_comm, and_comm]
    exact and_congr_right fun _ => ⟨fun both _ => both, fun all => all white⟩
  · rename_i black
    simp [Narrow, black]

theorem backOverWhiteSpace_eq (before content after : Text) (enough : bytes content ≤ fuel) :
    backOverWhiteSpace (before ++ content ++ after) (bytes before) fuel (bytes before + bytes content - 1 : Int) =
      if Steps content then .ok (bytes before + bytes (content.rdropWhile isWhiteSpaceSingleLine) - 1 : Int)
      else .panic notBetweenCharacters := by
  induction content using List.reverseRecOn generalizing after fuel with
  | nil =>
    have below : ¬(bytes before : Int) ≤ bytes before + bytes [] - 1 := by
      rw [bytes_nil]
      omega
    rw [if_pos steps_nil, rdropWhile_nil]
    cases fuel with
    | zero => rfl
    | succ fuel => rw [backOverWhiteSpace, if_neg below]
  | append_singleton content c ih =>
    have size := c.utf8Size_pos
    have length : bytes (content ++ [c]) = bytes content + c.utf8Size := by rw [bytes_append, bytes_cons, bytes_nil, Nat.add_zero]
    rw [length] at enough ⊢
    obtain ⟨fuel, rfl⟩ := Nat.exists_eq_succ_of_ne_zero (show fuel ≠ 0 by omega)
    have whole : before ++ (content ++ [c]) ++ after = before ++ content ++ c :: after := by simp
    have place : ((bytes before : Int) + ↑(bytes content + c.utf8Size) - 1).toNat = bytes (before ++ content) + (c.utf8Size - 1) := by
      rw [bytes_append]
      omega
    have inside : (bytes before : Int) ≤ bytes before + ↑(bytes content + c.utf8Size) - 1 := by omega
    rw [Nat.succ_eq_add_one, backOverWhiteSpace, if_pos inside, whole, place, dropBytes_lastByte]
    by_cases one : c.utf8Size = 1
    · rw [if_pos one]
      dsimp only
      rw [List.head?_cons]
      dsimp only
      by_cases white : isWhiteSpaceSingleLine c = true
      · have shorter : (bytes before : Int) + ↑(bytes content + c.utf8Size) - 1 - 1 = bytes before + bytes content - 1 := by omega
        have steps : Steps (content ++ [c]) ↔ Steps content := by rw [steps_concat]; simp [one, white]
        rw [if_pos white, shorter, ih (c :: after) (by omega), rdropWhile_concat_pos _ _ _ white]
        exact if_congr steps.symm rfl rfl
      · have steps : Steps (content ++ [c]) := steps_concat.mpr ⟨one, fun other => absurd other white⟩
        rw [if_neg white, if_pos steps, rdropWhile_concat_neg _ _ _ white, length]
    · have steps : ¬Steps (content ++ [c]) := fun steps => one (steps_concat.mp steps).1
      rw [if_neg one, if_neg steps]

theorem getTrailingWhitespaceStartPosition_eq (before content after : Text) {start stop : Int} (begins : start = bytes before)
    (ends : stop = bytes before + bytes content - 1) : getTrailingWhitespaceStartPosition (before ++ content ++ after) start stop =
      if Steps content then
        .ok (if content.rtakeWhile isWhiteSpaceSingleLine = [] then -1
          else (bytes before + bytes (content.rdropWhile isWhiteSpaceSingleLine) : Int))
      else .panic notBetweenCharacters := by
  subst begins ends
  have count : ((bytes before : Int) + bytes content - 1 + 1 - bytes before).toNat = bytes content := by omega
  unfold getTrailingWhitespaceStartPosition
  rw [count, backOverWhiteSpace_eq before content after (Nat.le_refl _)]
  split
  · have parts : bytes content = bytes (content.rdropWhile isWhiteSpaceSingleLine) + bytes (content.rtakeWhile isWhiteSpaceSingleLine) := by
      rw [← bytes_append, rdropWhile_append_rtakeWhile]
    refine congrArg Outcome.ok ?_
    by_cases none : content.rtakeWhile isWhiteSpaceSingleLine = []
    · rw [none, bytes_nil, Nat.add_zero] at parts
      rw [if_pos none, ← parts, if_neg fun other => other rfl]
    have some_ := bytes_pos none
    have other : (bytes before + bytes (content.rdropWhile isWhiteSpaceSingleLine) - 1 : Int) ≠ bytes before + bytes content - 1 := by
      omega
    rw [if_neg none, if_pos other]
    exact Int.sub_add_cancel _ _
  · rfl
end

variable {debugAssertions : Bool} {text before content after : Text} {front back : List Line} {line : Line} {edits : List TextChange}

/-- Of a line that begins at a byte, the white space at its end is deleted. -/
def Line.deletion (start : Nat) (line : Line) : List TextChange :=
  if line.content.rtakeWhile isWhiteSpaceSingleLine = [] then []
  else [⟨[], start + bytes (line.content.rdropWhile isWhiteSpaceSingleLine), start + bytes line.content⟩]

def deletionAt (text : Text) (i : Nat) : List TextChange :=
  ((linesOf text)[i]?.map (Line.deletion (bytes (textOf ((linesOf text).take i))))).getD []

def deletions (text : Text) (line1 line2 : Nat) : List TextChange := (List.range' line1 (line2 - line1)).flatMap (deletionAt text)

/-- The last byte of a line can be found, and from there all the bytes of the white space. -/
def Trimmable (text : Text) (i : Nat) : Prop :=
  ∀ line ∈ (linesOf text)[i]?, Steps line.content ∧ (i = 0 → line.content = [] → text ≠ [] ∧ Narrow line.ending)

instance (text : Text) (i : Nat) : Decidable (Trimmable text i) := Option.decidableForallMem _

theorem utf8Size_one {c : Char} (one : c.utf8Size = 1) : c.toNat < 128 :=
  Nat.lt_succ_of_le (UInt32.le_iff_toNat_le.mp (Char.utf8Size_eq_one_iff.mp one))

theorem encoded_at {c : Char} (one : c.utf8Size = 1) : (encoded (before ++ c :: after))[bytes before]? = some (UInt8.ofNat c.toNat) := by
  rw [encoded_append, ← length_encoded, List.getElem?_append_right (Nat.le_refl _), Nat.sub_self, encoded_cons,
    utf8EncodeChar_ascii (utf8Size_one one)]
  rfl

theorem assertNoWhiteSpaceBefore_ok (steps : Steps content) :
    assertNoWhiteSpaceBefore debugAssertions (before ++ content ++ after) (bytes before)
      (bytes before + bytes (content.rdropWhile isWhiteSpaceSingleLine) : Int) = .ok () := by
  unfold assertNoWhiteSpaceBefore
  have last := steps.2
  obtain ⟨run, whole⟩ : ∃ run, content = content.rdropWhile isWhiteSpaceSingleLine ++ run :=
    ⟨_, rdropWhile_append_rtakeWhile.symm⟩
  have black := @List.rdropWhile_last_not _ isWhiteSpaceSingleLine content
  generalize content.rdropWhile isWhiteSpaceSingleLine = rest at last whole black ⊢
  subst whole
  rcases eq_nil_or_concat' rest with rfl | ⟨rest, c, rfl⟩
  · rw [bytes_nil, Int.natCast_zero, Int.add_zero, if_neg fun other => other rfl]
  rw [List.getLast?_concat] at last
  have one := last c rfl
  have black : ¬isWhiteSpaceSingleLine c = true := by simpa using black (by simp)
  have place : ((bytes before : Int) + bytes (rest ++ [c]) - 1).toNat = bytes (before ++ rest) := by
    rw [bytes_append, bytes_append, bytes_cons, one, bytes_nil]
    omega
  have whole : before ++ (rest ++ [c] ++ run) ++ after = (before ++ rest) ++ c :: (run ++ after) := by simp
  have byte : (UInt8.ofNat c.toNat).toNat = c.toNat := UInt8.toNat_ofNat_of_lt' (Nat.lt_trans (utf8Size_one one) (by decide))
  have some_ := bytes_pos (append_ne_nil_of_right_ne_nil rest (cons_ne_nil c []))
  have other : (bytes before + bytes (rest ++ [c]) : Int) ≠ bytes before := by omega
  rw [if_pos other, place, whole, encoded_at one]
  dsimp only
  rw [byte, Char.ofNat_toNat, Bool.eq_false_iff.mpr black, Bool.and_false]
  rfl

theorem getTrailingWhitespaceStartPosition_first (text : Text) : getTrailingWhitespaceStartPosition text 0 0 =
    .ok (if text.head?.elim true isWhiteSpaceSingleLine then 0 else -1) := by
  cases text with
  | nil => rfl
  | cons c text =>
    rw [List.head?_cons, Option.elim_some]
    have start : dropBytes (c :: text) (0 : Int).toNat = some (c :: text) := rfl
    unfold getTrailingWhitespaceStartPosition
    rw [show ((0 : Int) + 1 - 0).toNat = 0 + 1 from rfl, backOverWhiteSpace, if_pos (le_refl _), start]
    dsimp only
    rw [List.head?_cons]
    dsimp only
    split
    · rfl
    · rfl

theorem black_of_isLineBreak {c : Char} (breaks : isLineBreak c = true) : isWhiteSpaceSingleLine c = false := by
  unfold isLineBreak at breaks
  simp only [Bool.or_eq_true, decide_eq_true_eq] at breaks
  rcases breaks with ((rfl | rfl) | rfl) | rfl
  all_goals decide

section
variable (shape : linesOf text = front ++ line :: back)
include shape

theorem lineStart_at : (computeEcmaLineStartsSeq text)[front.length]? = some (bytes (textOf front)) := by
  rw [computeEcmaLineStartsSeq_eq, shape, startsOf_at, Nat.zero_add]

theorem bytes_textOf_le : bytes (textOf front ++ line.content) ≤ bytes text := by
  rw [← textOf_linesOf text, shape, textOf_append, textOf_cons]
  simp only [bytes_append]
  omega

theorem trimLine_panic (none : textOf front ++ line.content = []) (wide : ¬Narrow line.ending) :
    trimLine debugAssertions text unprotected edits front.length = .panic notBetweenCharacters := by
  unfold trimLine
  rw [lineStart_at shape, getEcmaEndLinePosition_eq shape, if_pos ⟨none, wide⟩]
  rfl
end

theorem recordDelete_of_ne {start stop : Int} (some_ : start ≠ stop) : recordDelete edits start (stop - start) = edits ++ [⟨[], start, stop⟩] := by
  have filled : stop - start ≠ 0 := fun none => some_ (Int.sub_eq_zero.mp none).symm
  have sum : start + (stop - start) = stop := by omega
  exact (if_pos filled).trans (congrArg (fun stop : Int => edits ++ [⟨[], start, stop⟩]) sum)

theorem trimLine_found {i start stop : Nat} {whitespaceStart : TextPos} (begins : (computeEcmaLineStartsSeq text)[i]? = some start)
    (ends : getEcmaEndLinePosition text i = .ok stop)
    (found : getTrailingWhitespaceStartPosition text (i32 start) (i32 stop) = .ok whitespaceStart)
    (asserted : whitespaceStart ≠ -1 → assertNoWhiteSpaceBefore debugAssertions text (i32 start) whitespaceStart = .ok ()) :
    trimLine debugAssertions text unprotected edits i =
      .ok (if whitespaceStart ≠ -1 then recordDelete edits whitespaceStart (i32 stop + 1 - whitespaceStart) else edits) := by
  have open_ : unprotected.protects (i32 stop) = false := by simp [TextRangeWithKind.protects]
  unfold trimLine
  rw [begins, ends]
  dsimp only
  rw [Outcome.monad_bind, Outcome.bind_ok, open_, if_neg Bool.false_ne_true, found, Outcome.monad_bind, Outcome.bind_ok]
  split
  · rename_i some_
    rw [asserted some_]
    rfl
  · rfl

theorem trimLine_first (shape : linesOf text = front ++ line :: back) (none : textOf front ++ line.content = []) (narrow : Narrow line.ending) :
    trimLine debugAssertions text unprotected edits front.length = .ok (if text = [] then edits ++ [⟨[], 0, 1⟩] else edits) := by
  have are := areLines_linesOf text
  have whole := textOf_linesOf text
  rw [shape] at are whole
  obtain ⟨-, last, ended⟩ := are.at
  have begins := lineStart_at shape
  have ends := getEcmaEndLinePosition_eq shape
  have start : bytes (textOf front) = 0 := by rw [(append_eq_nil_iff.mp none).1, bytes_nil]
  rw [start] at begins
  rw [if_neg fun both => both.2 narrow, none, bytes_nil] at ends
  have found := getTrailingWhitespaceStartPosition_first text
  rw [trimLine_found begins ends found ?_]
  · by_cases empty : text = []
    · rw [empty, if_pos rfl]
      rfl
    have black : text.head?.elim true isWhiteSpaceSingleLine = false := by
      rw [textOf_append, textOf_cons, ← append_assoc, ← append_assoc, none, nil_append] at whole
      by_cases final : back = []
      · rw [last final, final] at whole
        exact absurd whole.symm empty
      rw [← whole]
      rcases ended final with crlf | ⟨c, breaks, single⟩
      · rw [crlf]
        rfl
      · rw [single, cons_append, List.head?_cons]
        exact black_of_isLineBreak breaks
    rw [if_neg empty, black]
    rfl
  · cases text.head?.elim true isWhiteSpaceSingleLine with
    | true => exact fun _ => if_neg fun other => other rfl
    | false => exact fun other => absurd rfl other

theorem trimLine_later (short : bytes text < 2 ^ 31) (shape : linesOf text = front ++ line :: back)
    (some_ : textOf front ++ line.content ≠ []) : trimLine debugAssertions text unprotected edits front.length =
      if Steps line.content then .ok (edits ++ line.deletion (bytes (textOf front))) else .panic notBetweenCharacters := by
  have within := bytes_textOf_le shape
  have filled := bytes_pos some_
  have whole := textOf_linesOf text
  rw [shape, textOf_append, textOf_cons, append_assoc, ← append_assoc] at whole
  have ends := getEcmaEndLinePosition_eq shape
  rw [if_neg fun both => some_ both.1] at ends
  rw [bytes_append] at filled within ends
  have start : i32 (bytes (textOf front)) = bytes (textOf front) := i32_nat (by omega)
  have stop : i32 ((bytes (textOf front) + bytes line.content - 1 : Nat) : Int) = bytes (textOf front) + bytes line.content - 1 := by
    rw [i32_nat (by omega)]
    omega
  have found := getTrailingWhitespaceStartPosition_eq (textOf front) line.content (line.ending ++ textOf back) start stop
  rw [whole] at found
  by_cases steps : Steps line.content
  · rw [if_pos steps] at found ⊢
    by_cases bare : line.content.rtakeWhile isWhiteSpaceSingleLine = []
    · rw [if_pos bare] at found
      rw [trimLine_found (lineStart_at shape) ends found fun other => absurd rfl other, Line.deletion, if_pos bare, append_nil]
      rfl
    rw [if_neg bare] at found
    have real : (bytes (textOf front) + bytes (line.content.rdropWhile isWhiteSpaceSingleLine) : Int) ≠ -1 := by omega
    have asserted : assertNoWhiteSpaceBefore debugAssertions text (i32 (bytes (textOf front)))
        (bytes (textOf front) + bytes (line.content.rdropWhile isWhiteSpaceSingleLine) : Int) = .ok () := by
      rw [start, ← whole]
      exact assertNoWhiteSpaceBefore_ok steps
    rw [trimLine_found (lineStart_at shape) ends found fun _ => asserted, if_pos real, stop, Line.deletion, if_neg bare]
    have parts : bytes line.content =
        bytes (line.content.rdropWhile isWhiteSpaceSingleLine) + bytes (line.content.rtakeWhile isWhiteSpaceSingleLine) := by
      rw [← bytes_append, rdropWhile_append_rtakeWhile]
    have run := bytes_pos bare
    have last : (bytes (textOf front) + bytes line.content - 1 + 1 : Int) = bytes (textOf front) + bytes line.content :=
      Int.sub_add_cancel _ _
    rw [last, recordDelete_of_ne (by omega)]
  · rw [if_neg steps] at found ⊢
    have open_ (stop : TextPos) : unprotected.protects stop = false := by simp [TextRangeWithKind.protects]
    unfold trimLine
    rw [lineStart_at shape, ends]
    dsimp only
    rw [Outcome.monad_bind, Outcome.bind_ok, open_, if_neg Bool.false_ne_true, found]
    rfl

theorem trimmable_iff (shape : linesOf text = front ++ line :: back) : Trimmable text front.length ↔
    Steps line.content ∧ (textOf front ++ line.content = [] → text ≠ [] ∧ Narrow line.ending) := by
  have are := areLines_linesOf text
  rw [shape] at are
  have here : (linesOf text)[front.length]? = some line := by rw [shape, List.getElem?_append_right (Nat.le_refl _), Nat.sub_self]; rfl
  unfold Trimmable
  rw [here, append_eq_nil_iff, are.before]
  simp [length_eq_zero_iff]

theorem deletionAt_eq (shape : linesOf text = front ++ line :: back) : deletionAt text front.length = line.deletion (bytes (textOf front)) := by
  have here : (linesOf text)[front.length]? = some line := by rw [shape, List.getElem?_append_right (Nat.le_refl _), Nat.sub_self]; rfl
  have start : (linesOf text).take front.length = front := by rw [shape, take_left]
  rw [deletionAt, here, start]
  rfl

theorem trimLine_cases (short : bytes text < 2 ^ 31) (some_ : text ≠ []) {i : Nat} (inside : i < (linesOf text).length) :
    Trimmable text i ∧ (∀ edits, trimLine debugAssertions text unprotected edits i = .ok (edits ++ deletionAt text i)) ∨
      ¬Trimmable text i ∧ ∀ edits, trimLine debugAssertions text unprotected edits i = .panic notBetweenCharacters := by
  obtain ⟨front, line, back, shape, rfl⟩ : ∃ front line back, linesOf text = front ++ line :: back ∧ front.length = i :=
    ⟨(linesOf text).take i, (linesOf text)[i], (linesOf text).drop (i + 1), by simp, by simp [Nat.le_of_lt inside]⟩
  rw [trimmable_iff shape, deletionAt_eq shape]
  by_cases none : textOf front ++ line.content = []
  · have bare : line.content = [] := (append_eq_nil_iff.mp none).2
    have still : line.deletion (bytes (textOf front)) = [] := by rw [Line.deletion, bare]; rfl
    have steps : Steps line.content := bare ▸ steps_nil
    by_cases narrow : Narrow line.ending
    · refine .inl ⟨⟨steps, fun _ => ⟨some_, narrow⟩⟩, fun edits => ?_⟩
      rw [trimLine_first shape none narrow, if_neg some_, still, append_nil]
    · exact .inr ⟨fun both => narrow (both.2 none).2, fun edits => trimLine_panic shape none narrow⟩
  · by_cases steps : Steps line.content
    · exact .inl ⟨⟨steps, fun other => absurd other none⟩, fun edits => (trimLine_later short shape none).trans (if_pos steps)⟩
    · exact .inr ⟨fun both => steps both.1, fun edits => (trimLine_later short shape none).trans (if_neg steps)⟩

theorem foldlM_eq_ok_iff {β : Type} {f : List β → Nat → Outcome (List β)} {added : Nat → List β} {good : Nat → Prop} {turns : List Nat}
    {message : String} (cases_ : ∀ i ∈ turns, good i ∧ (∀ l, f l i = .ok (l ++ added i)) ∨ ¬good i ∧ ∀ l, f l i = .panic message)
    (l : List β) : turns.foldlM f l = .ok (l ++ turns.flatMap added) ↔ ∀ i ∈ turns, good i := by
  induction turns generalizing l with
  | nil =>
    rw [flatMap_nil, append_nil]
    exact iff_of_true rfl fun _ listed => absurd listed not_mem_nil
  | cons i turns ih =>
    obtain ⟨here, later⟩ := forall_mem_cons.mp cases_
    rw [foldlM_cons, flatMap_cons, forall_mem_cons]
    rcases here with ⟨fine, adds⟩ | ⟨bad, aborts⟩
    · rw [adds, Outcome.monad_bind, Outcome.bind_ok, ← append_assoc, ih later]
      exact (and_iff_right fine).symm
    · rw [aborts]
      exact iff_of_false (fun other => by cases other) fun both => bad both.1

end TypeScriptRs.Format
