import TypeScriptRs.Lib.Run
import TypeScriptRs.Lib.Lines
import TypeScriptRs.Printer.TextWriter

/-! The positions that the writer reports are those in the final text. -/
namespace TypeScriptRs.Printer
open Machine Utf8 Lines Interleaving List Option

variable {c : Char} {text : Text}

abbrev lineBreaks (text : Text) : Nat := breaks isLineBreak text []

theorem ends_of_not_isLineBreak (other : isLineBreak c = false) (next : Option Char) : ends isLineBreak c next = false := by
  simp [ends, other]

theorem utf8Size_of_ascii (ascii : c.toNat < 0x80) : c.utf8Size = 1 :=
  Char.utf8Size_eq_one_iff.mpr (UInt32.le_iff_toNat_le.mpr (Nat.lt_succ_iff.mp ascii))

theorem isLineBreak_of_ascii (ascii : c.toNat < 0x80) : isLineBreak c = true ↔ c = '\r' ∨ c = '\n' := by
  have narrow (d : Char) (wide : 0x80 ≤ d.toNat) : c ≠ d := by
    rintro rfl
    omega
  have line := narrow '\u2028' (by decide)
  have paragraph := narrow '\u2029' (by decide)
  simp [isLineBreak, line, paragraph, or_comm]

/-- A list of the lines of a text at a position, in a line that starts at another: one more than line breaks, and
the last one starts after the last of them. -/
def Scanned (text : Text) (pos lineStart : Nat) (starts : List Nat) : Prop :=
  starts.length = lineBreaks text + 1 ∧
    starts.getLast? = some (if lineBreaks text = 0 then lineStart else pos + lastStart isLineBreak text)

theorem Scanned.next {c : Char} {text : Text} {pos lineStart : Nat} {starts : List Nat}
    (later : Scanned text (pos + c.utf8Size) lineStart starts) (same : ends isLineBreak c text.head? = false) :
    Scanned (c :: text) pos lineStart starts := by
  have count : lineBreaks (c :: text) = lineBreaks text := by
    rw [lineBreaks, breaks_cons, append_nil, same, if_neg Bool.false_ne_true, Nat.zero_add]
  unfold Scanned at *
  rw [count]
  refine ⟨later.1, later.2.trans ?_⟩
  split
  · rfl
  · rename_i some_
    rw [lastStart_cons (by rwa [← count] at some_), Nat.add_assoc]

theorem Scanned.break_ {pos lineStart : Nat} {starts : List Nat}
    (later : Scanned text (pos + c.utf8Size) (pos + c.utf8Size) starts) (ended : ends isLineBreak c text.head? = true) :
    Scanned (c :: text) pos lineStart (lineStart :: starts) := by
  have count : lineBreaks (c :: text) = 1 + lineBreaks text := by
    rw [lineBreaks, breaks_cons, append_nil, ended, if_pos rfl]
  have some_ : lineBreaks (c :: text) ≠ 0 := by omega
  obtain ⟨long, last⟩ := later
  refine ⟨by rw [length_cons, long, count]; omega, ?_⟩
  rw [if_neg some_, lastStart_cons some_, List.getLast?_cons, last, getD_some, ← Nat.add_assoc]
  split
  · rename_i none_
    rw [lastStart_of_breaks none_, Nat.add_zero]
  · rfl

theorem scanned_ecmaLineStartsFrom (text : Text) (pos lineStart : Nat) :
    Scanned text pos lineStart (ecmaLineStartsFrom text pos lineStart) := by
  fun_induction ecmaLineStartsFrom text pos lineStart with
  | case1 pos lineStart => exact ⟨rfl, rfl⟩
  | case2 text pos lineStart ih =>
    have feed : Scanned ('\n' :: text) (pos + 1) lineStart _ := ih.break_ (by simp [ends, isLineBreak])
    exact Scanned.next (c := '\r') feed rfl
  | case3 c text pos lineStart apart ascii ended ih =>
    rw [← utf8Size_of_ascii ascii] at ih ⊢
    refine ih.break_ ?_
    rcases ended with rfl | rfl
    · cases text with
      | nil => rfl
      | cons d text =>
        have other : d ≠ '\n' := fun same => apart text rfl (by rw [same])
        simp [ends, isLineBreak, other]
    · simp [ends, isLineBreak]
  | case4 c text pos lineStart apart ascii other ih =>
    rw [← utf8Size_of_ascii ascii] at ih ⊢
    exact ih.next (ends_of_not_isLineBreak (Bool.eq_false_iff.mpr fun breaks => other ((isLineBreak_of_ascii ascii).mp breaks)) _)
  | case5 c text pos lineStart apart wide ended ih =>
    refine ih.break_ ?_
    have other : c ≠ '\r' := by
      rintro rfl
      exact wide (by decide)
    simp [ends, ended, other]
  | case6 c text pos lineStart apart wide other ih =>
    exact ih.next (ends_of_not_isLineBreak (Bool.not_eq_true _ |>.mp other) _)

theorem foldl_count (starts : List Nat) (n last : Nat) :
    starts.foldl (fun lines lineStart => (i32 (lines.1 + 1), lineStart)) (i32 n, last) =
      (i32 (n + starts.length : Nat), starts.getLast?.getD last) := by
  induction starts generalizing n last with
  | nil => rfl
  | cons start starts ih =>
    have next : i32 (i32 n + 1) = i32 (n + 1 : Nat) := i32_add_left n 1
    rw [foldl_cons, next, ih, List.getLast?_cons, length_cons, getD_some]
    rw [Nat.add_assoc, Nat.add_comm 1]

theorem foldl_utf16Size (text : Text) (n : Nat) (short : n + columnOf text < 2 ^ 31) :
    text.foldl (fun n ch => i32 (n + utf16Size ch)) (n : Int) = (n + columnOf text : Nat) := by
  induction text generalizing n with
  | nil => rfl
  | cons c text ih =>
    have total : columnOf (c :: text) = utf16Size c + columnOf text := columnOf_append [c] text
    have next : i32 ((n : Int) + utf16Size c) = (n + utf16Size c : Nat) := i32_nat (by omega)
    rw [foldl_cons, next, ih (n + utf16Size c) (by omega), total, Nat.add_assoc]

theorem utf16LenFrom_eq (text : Text) (i : Nat) (short : i + bytes text < 2 ^ 31) :
    utf16LenFrom text i = (i + columnOf text : Nat) := by
  induction text generalizing i with
  | nil => exact i32_nat short
  | cons c text ih =>
    have total : columnOf (c :: text) = utf16Size c + columnOf text := columnOf_append [c] text
    have few := columnOf_le (c :: text)
    rw [utf16LenFrom]
    rw [bytes_cons] at short few
    split
    · rename_i ascii
      have one : utf16Size c = 1 := if_pos (by omega)
      rw [ih (i + 1) (by have := utf8Size_of_ascii ascii; omega), total, one, Nat.add_assoc]
    · have start : i32 (i : Int) = i := i32_nat (by omega)
      rw [start, foldl_utf16Size _ _ (by omega)]

theorem eq_nil_of_bytes (empty : bytes text = 0) : text = [] := by
  cases text with
  | nil => rfl
  | cons c text =>
    have size := c.utf8Size_pos
    rw [bytes_cons] at empty
    omega

namespace TextWriter

variable {w t : TextWriter} {s : Text} {text s indentation : Text} {c : Call} {calls after : List Call} {w' final : TextWriter}

theorem updateLineCountAndPosFor_eq (short : bytes s < 2 ^ 31 - 1) : w.updateLineCountAndPosFor s =
    if lineBreaks s = 0 then { w with lineStart := false }
    else
      let linePos := bytes w.builder - bytes s + lastStart isLineBreak s
      { w with
        lineCount := i32 (w.lineCount + lineBreaks s)
        linePos
        lineStart := linePos == bytes w.builder } := by
  have few : lineBreaks s ≤ bytes s := breaks_le s []
  obtain ⟨long, last⟩ := scanned_ecmaLineStartsFrom s 0 0
  have fold := foldl_count (computeEcmaLineStartsSeq s) 0 0
  have total : i32 (0 + (computeEcmaLineStartsSeq s).length : Nat) = (lineBreaks s + 1 : Nat) := by
    rw [computeEcmaLineStartsSeq, long, Nat.zero_add]
    exact i32_nat (by omega)
  have start : (computeEcmaLineStartsSeq s).getLast?.getD 0 = lastStart isLineBreak s := by
    rw [computeEcmaLineStartsSeq, last, getD_some, Nat.zero_add]
    split
    · rename_i none_
      exact (lastStart_of_breaks none_).symm
    · rfl
  rw [total, start] at fold
  have counted : (computeEcmaLineStartsSeq s).foldl (fun lines lineStart => (i32 (lines.1 + 1), lineStart)) (0, 0) =
      (((lineBreaks s + 1 : Nat) : Int), lastStart isLineBreak s) := fold
  unfold updateLineCountAndPosFor
  simp only [counted]
  split
  · rw [if_neg (by omega)]
    have more : i32 (((lineBreaks s + 1 : Nat) : Int) - 1) = lineBreaks s := by
      rw [Nat.cast_add, Nat.cast_one, Int.add_sub_cancel]
      exact i32_nat (by omega)
    rw [more]
  · rw [if_pos (by omega)]

structure Sound (w : TextWriter) : Prop where
  line : w.lineCount = i32 (lineBreaks w.builder)
  pos : w.linePos = lastStart isLineBreak w.builder
  start : w.lineStart = true → lastLine isLineBreak w.builder [] = []

theorem sound_newWithIndentSize (newLine : Text) (indentSize : Int) : Sound (newWithIndentSize newLine indentSize) :=
  ⟨(i32_nat (by decide)).symm, rfl, fun _ => rfl⟩

theorem lineBreaks_append (whole : ¬Splits text s) : lineBreaks (text ++ s) = lineBreaks text + lineBreaks s := by
  rw [lineBreaks, breaks_append, append_nil, breaks_of_not_splits whole]

theorem lastLine_append_of_not_splits (whole : ¬Splits text s) : lastLine isLineBreak (text ++ s) [] =
      if lineBreaks s = 0 then lastLine isLineBreak text [] ++ s else lastLine isLineBreak s [] := by
  rw [lastLine_append, append_nil, lastLine_of_not_splits whole]

theorem lastStart_append (whole : ¬Splits text s) : lastStart isLineBreak (text ++ s) =
      if lineBreaks s = 0 then lastStart isLineBreak text else bytes text + lastStart isLineBreak s := by
  have first := bytes_lastLine_le isLineBreak text []
  have second := bytes_lastLine_le isLineBreak s []
  rw [lastStart, lastLine_append_of_not_splits whole, bytes_append]
  split
  · rw [bytes_append, lastStart]
    omega
  · rw [lastStart]
    omega

theorem Sound.chunk (known : Sound w) (builder : t.builder = w.builder ++ s) (line : t.lineCount = w.lineCount)
    (pos : t.linePos = w.linePos) (whole : ¬Splits w.builder s) (short : bytes s < 2 ^ 31 - 1) :
    Sound (t.updateLineCountAndPosFor s) := by
  have starts := lastStart_append whole
  have count := lineBreaks_append whole
  rw [updateLineCountAndPosFor_eq short]
  split
  · rename_i none_
    rw [if_pos none_] at starts
    refine ⟨?_, ?_, nofun⟩
    · simp only [line, builder, count, none_, known.line, Nat.add_zero]
    · simp only [pos, builder, starts, known.pos]
  rename_i some_
  rw [if_neg some_] at starts
  have total : bytes t.builder = bytes w.builder + bytes s := by rw [builder, bytes_append]
  refine ⟨?_, ?_, fun same => ?_⟩
  · simp only [line, builder, count, known.line, i32_add_left, Nat.cast_add]
  · change bytes t.builder - bytes s + lastStart isLineBreak s = lastStart isLineBreak t.builder
    rw [total, builder, starts]
    omega
  have lastStart_eq : bytes t.builder - bytes s + lastStart isLineBreak s = bytes t.builder := eq_of_beq same
  have shorter := bytes_lastLine_le isLineBreak s []
  have empty : bytes (lastLine isLineBreak s []) = 0 := by
    unfold lastStart at lastStart_eq
    omega
  rw [builder, lastLine_append_of_not_splits whole, if_neg some_]
  exact eq_nil_of_bytes empty

theorem lineBreaks_spaces (n : Nat) : lineBreaks (List.replicate n ' ') = 0 := by
  induction n with
  | zero => rfl
  | succ n ih =>
    exact (Nat.zero_add _).trans ih

theorem not_splits_spaces (text : Text) (n : Nat) : ¬Splits text (List.replicate n ' ') := by
  rintro ⟨-, feed⟩
  cases n with
  | zero => cases feed
  | succ n => exact absurd (Option.some.inj feed) (by decide)

/-- The indentation that the next write puts before its chunk. -/
def pendingIndent (w : TextWriter) : Option Text :=
  if w.lineStart then getIndentString w.indent w.indentSize else some []

theorem spaces_of_pendingIndent (pending : w.pendingIndent = some indentation) : ∃ n, indentation = List.replicate n ' ' := by
  unfold pendingIndent getIndentString at pending
  split at pending
  · split at pending
    · exact ⟨0, (Option.some.inj pending).symm⟩
    · simp only at pending
      split at pending
      · cases pending
      · exact ⟨_, (Option.some.inj pending).symm⟩
  · exact ⟨0, (Option.some.inj pending).symm⟩

theorem column_of_pendingIndent (pending : w.pendingIndent = some indentation)
    (first : w.lineStart = true) : w.getColumn = some (columnOf indentation : Int) := by
  have wide (n : Nat) : columnOf (List.replicate n ' ') = n := by
    have one : utf16Size ' ' = 1 := by decide
    simp [columnOf, one]
  simp only [pendingIndent, first, if_pos, getIndentString] at pending
  simp only [getColumn, first, if_pos, Option.some.injEq]
  split at pending
  · rename_i zero
    cases pending
    rw [zero, Int.zero_mul]
    exact i32_nat (by decide)
  split at pending
  · cases pending
  · cases pending
    rw [wide]
    omega

theorem Sound.indent (known : Sound w) (n : Nat) :
    Sound { w with builder := w.builder ++ List.replicate n ' ', lineStart := false } := by
  have whole := not_splits_spaces w.builder n
  have none_ := lineBreaks_spaces n
  refine ⟨?_, ?_, nofun⟩
  · rw [lineBreaks_append whole, none_, Nat.add_zero]
    exact known.line
  · rw [lastStart_append whole, if_pos none_]
    exact known.pos

theorem write_eq (filled : s ≠ []) : w.write s = w.pendingIndent.map fun indentation =>
    { w with
      hasTrailingCommentState := false
      builder := w.builder ++ indentation ++ s
      lineStart := false
      lastWritten := s }.updateLineCountAndPosFor s := by
  simp only [write, writeText, if_pos filled, pendingIndent]
  cases first : w.lineStart with
  | true =>
    simp only [if_pos]
    cases getIndentString w.indent w.indentSize <;> rfl
  | false =>
    simp only [Bool.false_eq_true, if_false, map_some, append_nil]
    cases w
    cases first
    rfl

@[simp] theorem updateLineCountAndPosFor_builder : (w.updateLineCountAndPosFor s).builder = w.builder := by
  unfold updateLineCountAndPosFor
  dsimp only
  split <;> rfl

@[simp] theorem updateLineCountAndPosFor_newLine : (w.updateLineCountAndPosFor s).newLine = w.newLine := by
  unfold updateLineCountAndPosFor
  dsimp only
  split <;> rfl

/-- What makes a string end one line, and nothing else: the strings that make a new line. -/
def EndsLine (newLine : Text) : Prop := lineBreaks newLine = 1 ∧ lastLine isLineBreak newLine [] = []

/-- No carriage return and its line feed come from two writes. -/
def Whole (w : TextWriter) : Call → Prop
  | .write s => ∀ indentation, w.pendingIndent = some indentation → ¬Splits (w.builder ++ indentation) s
  | .rawWrite s => ¬Splits w.builder s
  | .writeLine => w.lineStart = false → ¬Splits w.builder w.newLine
  | _ => True

theorem Sound.writeLineRaw (known : Sound w) (newLine : EndsLine w.newLine) (whole : ¬Splits w.builder w.newLine) :
    Sound w.writeLineRaw := by
  obtain ⟨one, empty⟩ := newLine
  have some_ : lineBreaks w.newLine ≠ 0 := by omega
  refine ⟨?_, ?_, fun _ => ?_⟩
  · change i32 (w.lineCount + 1) = i32 (lineBreaks (w.builder ++ w.newLine))
    rw [lineBreaks_append whole, known.line, one, i32_add_left, Nat.cast_add, Nat.cast_one]
  · change bytes (w.builder ++ w.newLine) = lastStart isLineBreak (w.builder ++ w.newLine)
    rw [lastStart_append whole, if_neg some_, lastStart, empty, bytes_append, bytes_nil, Nat.sub_zero]
  · change lastLine isLineBreak (w.builder ++ w.newLine) [] = []
    rw [lastLine_append_of_not_splits whole, if_neg some_, empty]

theorem rawWrite_eq : ∃ t : TextWriter, w.rawWrite s = t.updateLineCountAndPosFor s ∧ t.builder = w.builder ++ s ∧
    t.lineCount = w.lineCount ∧ t.linePos = w.linePos ∧ t.newLine = w.newLine := by
  refine ⟨_, rfl, ?_⟩
  split
  · exact ⟨rfl, rfl, rfl, rfl⟩
  · rename_i empty
    rw [not_not.mp empty, append_nil]
    exact ⟨rfl, rfl, rfl, rfl⟩

theorem call_builder (taken : w.call c = some t) : t.newLine = w.newLine ∧ ∃ more, t.builder = w.builder ++ more := by
  cases c with
  | write s =>
    by_cases filled : s = []
    · subst filled
      cases taken
      exact ⟨rfl, [], (append_nil _).symm⟩
    change w.write s = some t at taken
    rw [write_eq filled] at taken
    obtain ⟨indentation, -, rfl⟩ := map_eq_some_iff.mp taken
    rw [updateLineCountAndPosFor_newLine, updateLineCountAndPosFor_builder]
    exact ⟨rfl, _, append_assoc _ _ _⟩
  | writeLine =>
    cases taken
    unfold writeLine
    split
    · exact ⟨rfl, _, rfl⟩
    · exact ⟨rfl, [], (append_nil _).symm⟩
  | rawWrite s =>
    cases taken
    obtain ⟨t, result, builder, -, -, newLine⟩ := rawWrite_eq (w := w) (s := s)
    rw [result, updateLineCountAndPosFor_newLine, updateLineCountAndPosFor_builder]
    exact ⟨newLine, s, builder⟩
  | increaseIndent =>
    cases taken
    exact ⟨rfl, [], (append_nil _).symm⟩
  | decreaseIndent =>
    cases taken
    exact ⟨rfl, [], (append_nil _).symm⟩

theorem Sound.call (known : Sound w) (newLine : EndsLine w.newLine) (whole : Whole w c)
    (taken : w.call c = some t) (short : bytes t.builder < 2 ^ 31 - 1) : Sound t := by
  cases c with
  | write s =>
    by_cases filled : s = []
    · subst filled
      cases taken
      exact known
    change w.write s = some t at taken
    rw [write_eq filled] at taken
    obtain ⟨indentation, pending, rfl⟩ := map_eq_some_iff.mp taken
    obtain ⟨n, rfl⟩ := spaces_of_pendingIndent pending
    rw [updateLineCountAndPosFor_builder, bytes_append] at short
    exact (known.indent n).chunk rfl rfl rfl (whole _ pending) (by omega)
  | writeLine =>
    cases taken
    unfold writeLine
    split
    · rename_i inside
      exact known.writeLineRaw newLine (whole (by simpa using inside))
    · exact known
  | rawWrite s =>
    cases taken
    obtain ⟨t, result, builder, line, pos, -⟩ := rawWrite_eq (w := w) (s := s)
    rw [result] at short ⊢
    rw [updateLineCountAndPosFor_builder, builder, bytes_append] at short
    exact known.chunk builder line pos whole (by omega)
  | increaseIndent =>
    cases taken
    exact ⟨known.line, known.pos, known.start⟩
  | decreaseIndent =>
    cases taken
    exact ⟨known.line, known.pos, known.start⟩

theorem steps_builder (taken : steps call w calls = some t) : ∃ more, t.builder = w.builder ++ more := by
  induction calls generalizing w with
  | nil =>
    cases taken
    exact ⟨[], (append_nil _).symm⟩
  | cons c calls ih =>
    obtain ⟨w₁, first, later⟩ := bind_eq_some_iff.mp taken
    obtain ⟨-, more₁, shape₁⟩ := call_builder first
    obtain ⟨more₂, shape₂⟩ := ih later
    exact ⟨more₁ ++ more₂, by rw [shape₂, shape₁, append_assoc]⟩

theorem Sound.steps (known : Sound w) (newLine : EndsLine w.newLine)
    (whole : Allowed TextWriter.call Whole w calls) (taken : Interleaving.steps TextWriter.call w calls = some t)
    (short : bytes t.builder < 2 ^ 31 - 1) : Sound t := by
  induction calls generalizing w with
  | nil =>
    cases taken
    exact known
  | cons c calls ih =>
    obtain ⟨w₁, first, later⟩ := bind_eq_some_iff.mp taken
    obtain ⟨more, shape⟩ := steps_builder later
    have shorter : bytes w₁.builder < 2 ^ 31 - 1 := by
      rw [shape, bytes_append] at short
      omega
    refine ih (known.call newLine whole.1 first shorter) ?_ (whole.2 w₁ first) later
    rw [(call_builder first).1]
    exact newLine

theorem getLine_eq (known : Sound w) (short : bytes w.builder < 2 ^ 31) : w.getLine = lineBreaks w.builder := by
  have few : lineBreaks w.builder ≤ bytes w.builder := breaks_le w.builder []
  exact known.line.trans (i32_nat (by omega))

theorem getColumn_eq (known : Sound w) (short : bytes w.builder < 2 ^ 31) (pending : w.pendingIndent = some indentation) :
    w.getColumn = some (columnOf (lastLine isLineBreak w.builder [] ++ indentation) : Int) := by
  cases first : w.lineStart with
  | true =>
    rw [known.start first, nil_append]
    exact column_of_pendingIndent pending first
  | false =>
    have none_ : indentation = [] := by
      simp only [pendingIndent, first, Bool.false_eq_true, if_false, Option.some.injEq] at pending
      exact pending.symm
    have few := bytes_lastLine_le isLineBreak w.builder []
    have length := utf16LenFrom_eq (lastLine isLineBreak w.builder []) 0 (by omega)
    rw [Nat.zero_add] at length
    simp only [getColumn, first, Bool.false_eq_true, if_false, known.pos, dropBytes_lastStart, map_some,
      none_, append_nil]
    exact congrArg some length

theorem beginsAt_of_not_splits {before : Text} (after : Text) (filled : s ≠ []) (whole : ¬Splits before s) :
    BeginsAt isLineBreak s (before ++ s ++ after) (bytes before) (lineBreaks before)
      (columnOf (lastLine isLineBreak before [])) := by
  have whole' : ¬Splits before (s ++ after) := by
    rintro ⟨carriage, feed⟩
    cases s with
    | nil => exact filled rfl
    | cons c s => exact whole ⟨carriage, feed⟩
  exact ⟨before, after, rfl, rfl, breaks_of_not_splits whole', by rw [lastLine_of_not_splits whole']⟩

/-- The numbers reported now, against the place of a part in a final text. -/
def Reports (w : TextWriter) (part text : Text) (skipped unwritten : Text) : Prop :=
  ∃ offset line column : Nat, w.getTextPos = offset ∧ w.getLine = line ∧
    w.getColumn = some ((column + columnOf unwritten : Nat) : Int) ∧
    BeginsAt isLineBreak part text (offset + bytes skipped) line column

theorem Sound.reports_write (known : Sound w) (filled : s ≠ []) (whole : Whole w (.write s)) (now : w.call (.write s) = some w')
    (rest : Interleaving.steps TextWriter.call w' after = some final) (short : bytes final.string < 2 ^ 31) :
    ∃ indentation, w.pendingIndent = some indentation ∧ w.Reports s final.string indentation [] := by
  change w.write s = some w' at now
  rw [write_eq filled] at now
  obtain ⟨indentation, pending, rfl⟩ := map_eq_some_iff.mp now
  obtain ⟨n, spaces⟩ := spaces_of_pendingIndent pending
  obtain ⟨more, shape⟩ := steps_builder rest
  rw [updateLineCountAndPosFor_builder] at shape
  have shorter : bytes w.builder < 2 ^ 31 := by
    rw [string, shape] at short
    simp only [bytes_append] at short
    omega
  have blank : lineBreaks indentation = 0 := spaces ▸ lineBreaks_spaces n
  have apart : ¬Splits w.builder indentation := spaces ▸ not_splits_spaces w.builder n
  have begins := beginsAt_of_not_splits more filled (whole indentation pending)
  rw [lineBreaks_append apart, lastLine_append_of_not_splits apart, if_pos blank, blank, bytes_append] at begins
  refine ⟨indentation, pending, _, _, _, i32_nat shorter, getLine_eq known shorter, ?_, shape ▸ begins⟩
  exact getColumn_eq known shorter pending

theorem Sound.reports_rawWrite (known : Sound w) (filled : s ≠ [])
    (whole : Whole w (.rawWrite s)) (now : w.call (.rawWrite s) = some w')
    (rest : Interleaving.steps TextWriter.call w' after = some final) (short : bytes final.string < 2 ^ 31) (pending : w.pendingIndent = some indentation) :
    w.Reports s final.string [] indentation := by
  cases now
  obtain ⟨t, result, builder, -⟩ := rawWrite_eq (w := w) (s := s)
  obtain ⟨more, shape⟩ := steps_builder rest
  rw [result, updateLineCountAndPosFor_builder, builder] at shape
  have shorter : bytes w.builder < 2 ^ 31 := by
    rw [string, shape] at short
    simp only [bytes_append] at short
    omega
  have begins := beginsAt_of_not_splits more filled whole
  refine ⟨_, _, _, i32_nat shorter, getLine_eq known shorter, ?_, shape ▸ begins⟩
  rw [← columnOf_append]
  exact getColumn_eq known shorter pending

/-- The line and the column reported before a chunk are those at which it begins in the final text. A write puts the
chunk behind the pending indentation, which the column counts and the text position does not; a raw write puts it at
the text position, and writes no indentation. -/
theorem positions_sound {newLine : Text} {indentSize : Int} {before after : List Call} {w' final : TextWriter}
    (ended : EndsLine newLine)
    (whole : Allowed TextWriter.call Whole (newWithIndentSize newLine indentSize) before)
    (start : steps TextWriter.call (newWithIndentSize newLine indentSize) before = some w) (filled : s ≠ [])
    (short : bytes final.string < 2 ^ 31 - 1) (rest : steps TextWriter.call w' after = some final) :
    (Whole w (.write s) → w.call (.write s) = some w' →
      ∃ indentation, w.pendingIndent = some indentation ∧ w.Reports s final.string indentation []) ∧
    (Whole w (.rawWrite s) → w.call (.rawWrite s) = some w' → ∀ indentation,
      w.pendingIndent = some indentation → w.Reports s final.string [] indentation) := by
  have sound {c : Call} (now : w.call c = some w') : Sound w := by
    obtain ⟨-, more, shape⟩ := call_builder now
    obtain ⟨later, shape'⟩ := steps_builder rest
    rw [string, shape', shape] at short
    simp only [bytes_append] at short
    exact (sound_newWithIndentSize newLine indentSize).steps ended whole start (by omega)
  refine ⟨fun whole now => ?_, fun whole now indentation pending => ?_⟩
  · exact (sound now).reports_write filled whole now rest (by omega)
  · exact (sound now).reports_rawWrite filled whole now rest (by omega) pending

theorem positions_sound_indented : ∃ indentation,
    (newWithIndentSize ['\n'] 4).increaseIndent.pendingIndent = some indentation ∧
      (newWithIndentSize ['\n'] 4).increaseIndent.Reports ['a'] [' ', ' ', ' ', ' ', 'a'] indentation [] := by
  have ended : EndsLine ['\n'] := ⟨by decide, by decide⟩
  have written : ∃ w', (newWithIndentSize ['\n'] 4).increaseIndent.call (.write ['a']) = some w' ∧
      w'.string = [' ', ' ', ' ', ' ', 'a'] := ⟨_, rfl, by decide⟩
  obtain ⟨w', now, text⟩ := written
  have whole : Allowed TextWriter.call Whole (newWithIndentSize ['\n'] 4) [.increaseIndent] :=
    ⟨trivial, fun _ _ => trivial⟩
  have rest : steps TextWriter.call w' [] = some w' := rfl
  have reported := (positions_sound ended whole rfl (cons_ne_nil 'a' []) (by rw [text]; decide) rest).1 ?_ now
  · rwa [text] at reported
  · rintro indentation - ⟨-, feed⟩
    exact absurd (Option.some.inj feed) (by decide)

theorem getTextPos_rawWrite (newLine : Text) (indentSize : Int) (n : Nat) :
    ((newTextWriter newLine indentSize).rawWrite (List.replicate n 'a')).getTextPos = i32 n := by
  obtain ⟨t, result, builder, -⟩ := rawWrite_eq (w := newTextWriter newLine indentSize) (s := List.replicate n 'a')
  have one : 'a'.utf8Size = 1 := by decide
  rw [getTextPos, result, updateLineCountAndPosFor_builder, builder, bytes_append, bytes_replicate, one, Nat.mul_one]
  exact congrArg (fun size : Nat => i32 size) (Nat.zero_add n)

/-- The text position leaves out the pending indentation, a raw write is not indented, a new line may be empty, and
offsets are 32 bits wide. -/
theorem positions_unsound :
    ((newTextWriter ['\n'] 4).increaseIndent.getTextPos = 0 ∧
      ((newTextWriter ['\n'] 4).increaseIndent.write ['a']).map string = some [' ', ' ', ' ', ' ', 'a'] ∧
      ¬∃ line column, BeginsAt isLineBreak ['a'] [' ', ' ', ' ', ' ', 'a'] 0 line column) ∧
    ((newTextWriter ['\n'] 4).increaseIndent.getColumn = some 4 ∧
      ((newTextWriter ['\n'] 4).increaseIndent.rawWrite ['a']).string = ['a'] ∧
      ¬∃ offset line, BeginsAt isLineBreak ['a'] ['a'] offset line 4) ∧
    (∃ w, ((newTextWriter [] 4).write ['a']).map writeLine = some w ∧ w.getLine = 1 ∧
      (w.write ['b']).map string = some ['a', 'b'] ∧
      ¬∃ offset column, BeginsAt isLineBreak ['b'] ['a', 'b'] offset 1 column) ∧
    ∃ s, ((newTextWriter ['\n'] 4).rawWrite s).getTextPos < 0 := by
  refine ⟨⟨by decide, by decide, ?_⟩, ⟨by decide, by decide, ?_⟩, ⟨_, rfl, by decide, by decide, ?_⟩, ?_⟩
  · rintro ⟨line, column, before, after, shape, offset, -⟩
    rw [eq_nil_of_bytes offset] at shape
    exact absurd (List.cons.inj shape).1 (by decide)
  · rintro ⟨offset, line, before, after, shape, -, -, column⟩
    cases before with
    | nil => cases column
    | cons c before =>
      have rest := (List.cons.inj shape).2
      simp at rest
  · rintro ⟨offset, column, before, after, shape, -, line, -⟩
    rcases before with _ | ⟨c, _ | ⟨d, before⟩⟩
    · cases line
    · obtain ⟨rfl, -⟩ := List.cons.inj shape
      cases line
    · have rest := (List.cons.inj (List.cons.inj shape).2).2
      simp at rest
  · refine ⟨List.replicate (2 ^ 31) 'a', ?_⟩
    rw [getTextPos_rawWrite]
    decide

end TextWriter

end TypeScriptRs.Printer
