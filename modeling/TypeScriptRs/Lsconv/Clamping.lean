import TypeScriptRs.Lsconv.RoundTrip

/-! When the line and character that a client sends are clamped to the text. -/
namespace TypeScriptRs.Lsconv
open Machine Utf8 List

section
def addOverflow : String := "attempt to add with overflow"

/-- The sum of two positions: where overflow is not checked it wraps around. -/
def addPos (overflowChecks : Bool) (a b : TextPos) : Outcome TextPos :=
  if overflowChecks && i32 (a + b) ≠ a + b then .panic addOverflow else .ok (i32 (a + b))

variable (overflowChecks : Bool)

def scanUtf16Checked (text : Text) (ch : TextPos) (stop : Nat) : Nat → TextPos → Nat → Outcome Nat
  | 0, _, pos => .ok pos
  | fuel + 1, utf16Char, pos =>
    if pos < stop then
      match dropBytes text pos with
      | none => .panic "byte index is not a char boundary"
      | some rest =>
        let r := rest.headD (Char.ofNat 0)
        (addPos overflowChecks utf16Char (utf16Size r)).bind fun sum =>
          if sum > ch then .ok pos else scanUtf16Checked text ch stop fuel sum (pos + r.utf8Size)
    else .ok pos

/-- `line_and_character_to_position` in a build with or without overflow checks. -/
def Converters.lineAndCharacterToPositionChecked (converters : Converters) (script : Script) (at_ : Position) :
    Outcome TextPos :=
  let lineMap := converters.getLineMap script.fileName
  let line := toTextPos at_.line
  let ch := toTextPos at_.character
  let textLen := toTextPos (bytes script.text)
  if toUsize line ≥ lineMap.lineStarts.length then .ok textLen
  else
    let start := lineMap.lineStarts.getD (toUsize line) 0
    let lineEnd := if toUsize line + 1 < lineMap.lineStarts.length then lineMap.lineStarts.getD (toUsize line + 1) 0
      else textLen
    if lineMap.asciiOnly = true ∨ converters.positionEncoding = .utf8 then do
      let sum ← addPos overflowChecks start ch
      pure (max start (min sum lineEnd))
    else do
      let pos ← scanUtf16Checked overflowChecks script.text ch (toUsize lineEnd) (toUsize lineEnd) 0 (toUsize start)
      pure (toTextPos pos)

theorem scanUtf16Checked_false (text : Text) (ch : TextPos) (stop fuel : Nat) (utf16Char : TextPos) (pos : Nat) :
    scanUtf16Checked false text ch stop fuel utf16Char pos = scanUtf16 text ch stop fuel utf16Char pos := by
  induction fuel generalizing utf16Char pos with
  | zero => rfl
  | succ fuel ih =>
    rw [scanUtf16Checked, scanUtf16]
    cases dropBytes text pos with
    | none => rfl
    | some rest =>
      simp only [addPos, Bool.false_and, Bool.false_eq_true, if_false, Outcome.bind_ok, ih]

theorem lineAndCharacterToPositionChecked_false (converters : Converters) (script : Script) (at_ : Position) :
    converters.lineAndCharacterToPositionChecked false script at_ = converters.lineAndCharacterToPosition script at_ := by
  unfold Converters.lineAndCharacterToPositionChecked Converters.lineAndCharacterToPosition
  simp only [scanUtf16Checked_false]
  rfl
end

section
variable {c : Char} {text line : Text}

def linesOf : Text → List Text
  | [] => [[]]
  | c :: text =>
    if endsLine c text.head? then [c] :: linesOf text else (c :: (linesOf text).headD []) :: (linesOf text).tail

example : linesOf "a\r\nb\n".toList = ["a\r\n".toList, "b\n".toList, []] := by decide

theorem linesOf_ends (ends : endsLine c text.head? = true) : linesOf (c :: text) = [c] :: linesOf text := by
  rw [linesOf, if_pos ends]

theorem linesOf_goes {lines : List Text} (goes : endsLine c text.head? = false)
    (shape : linesOf text = line :: lines) : linesOf (c :: text) = (c :: line) :: lines := by
  rw [linesOf, goes, shape]
  rfl

theorem linesOf_cons (text : Text) : ∃ line lines, linesOf text = line :: lines := by
  cases text with
  | nil => exact ⟨[], [], rfl⟩
  | cons c text =>
    cases ends : endsLine c text.head? with
    | true => exact ⟨_, _, linesOf_ends ends⟩
    | false => exact ⟨_, _, by rw [linesOf, ends]; rfl⟩

theorem linesOf_flatten (text : Text) : (linesOf text).flatten = text := by
  induction text with
  | nil => rfl
  | cons c text ih =>
    cases ends : endsLine c text.head? with
    | true => rw [linesOf_ends ends, flatten_cons, ih, singleton_append]
    | false =>
      obtain ⟨line, lines, shape⟩ := linesOf_cons text
      rw [shape, flatten_cons] at ih
      rw [linesOf_goes ends shape, flatten_cons, cons_append, ih]

theorem lineStart_linesOf {before after : List Text} (shape : linesOf text = before ++ line :: after) (pos : Nat) :
    (pos :: lineEnds text [] pos)[before.length]? = some (pos + bytes before.flatten) := by
  induction text generalizing before line pos with
  | nil =>
    cases before with
    | nil => rfl
    | cons first before => simp [linesOf] at shape
  | cons c text ih =>
    cases ends : endsLine c text.head? with
    | true =>
      rw [linesOf_ends ends] at shape
      rw [lineEnds_ends pos (by rwa [append_nil])]
      cases before with
      | nil => simp
      | cons first before =>
        rw [cons_append, List.cons.injEq] at shape
        rw [length_cons, List.getElem?_cons_succ, ih shape.2, ← shape.1, flatten_cons, bytes_append, Nat.add_assoc]
        rfl
    | false =>
      obtain ⟨head, tail, shape'⟩ := linesOf_cons text
      rw [linesOf_goes ends shape'] at shape
      rw [lineEnds_goes pos (by rwa [append_nil])]
      cases before with
      | nil => simp
      | cons first before =>
        rw [cons_append, List.cons.injEq] at shape
        have later := @ih line (head :: before) (shape'.trans (by rw [shape.2]; rfl)) (pos + c.utf8Size)
        rw [length_cons, List.getElem?_cons_succ] at later ⊢
        rw [later, ← shape.1]
        simp only [flatten_cons, bytes_append, bytes_cons]
        congr 1
        omega

theorem linesOf_length (text : Text) (pos : Nat) : (linesOf text).length = (lineEnds text [] pos).length + 1 := by
  induction text generalizing pos with
  | nil => rfl
  | cons c text ih =>
    cases ends : endsLine c text.head? with
    | true => rw [linesOf_ends ends, lineEnds_ends pos (by rwa [append_nil]), length_cons, length_cons, ih]
    | false =>
      obtain ⟨line, lines, shape⟩ := linesOf_cons text
      rw [linesOf_goes ends shape, lineEnds_goes pos (by rwa [append_nil]), ← ih (pos + c.utf8Size), shape]
      rfl
end

section
variable {overflowChecks : Bool}

theorem addPos_fits {a b : Nat} (fits : a + b < 2 ^ 31) : addPos overflowChecks a b = .ok ((a + b : Nat) : Int) := by
  have sum : i32 ((a : Int) + b) = ((a + b : Nat) : Int) := by
    exact i32_eq fits
  unfold addPos
  rw [sum, if_neg (by simp)]

theorem toTextPos_large {character : Nat} (word : character < 2 ^ 32) (large : 2 ^ 31 ≤ character) :
    @Eq Int (toTextPos character) (character - 2 ^ 32) := by
  unfold toTextPos i32
  rw [Int.bmod_def]
  omega

theorem addPos_negative {a : Nat} {b : Int} (small : a < 2 ^ 31) (negative : b < 0) (low : -2 ^ 31 ≤ b) :
    addPos overflowChecks a b = .ok (a + b) := by
  have sum : i32 ((a : Int) + b) = a + b := i32_of_range (by omega) (by omega)
  unfold addPos
  rw [sum, if_neg (by simp)]

theorem addPos_overflows {a b : Nat} (small : a < 2 ^ 31) (small' : b < 2 ^ 31) (large : 2 ^ 31 ≤ a + b) :
    addPos overflowChecks a b = if overflowChecks = true then .panic addOverflow else .ok ((a : Int) + b - 2 ^ 32) := by
  have sum : i32 ((a : Int) + b) = (a : Int) + b - 2 ^ 32 := by
    unfold i32
    rw [Int.bmod_def]
    omega
  unfold addPos
  rw [sum]
  cases overflowChecks with
  | false => rfl
  | true => rw [if_pos (by simp), if_pos rfl]
end

section
variable {overflowChecks : Bool} {text before line after : Text} {ch : Int}

/-- The scan goes on to the end of the line as long as the characters fit, and does not start for a negative one. -/
theorem scanUtf16Checked_stops (whole : text = before ++ line ++ after) (fits : bytes text < 2 ^ 31) (rest done : Text)
    (shape : line = done ++ rest) (fuel : Nat) (enough : bytes rest ≤ fuel) :
    ∃ front back, rest = front ++ back ∧
      scanUtf16Checked overflowChecks text ch (bytes before + bytes line) fuel (unitsOf utf16Size done : Nat) (bytes before + bytes done) =
        .ok (bytes before + bytes done + bytes front) ∧
      (unitsOf utf16Size line ≤ ch → back = []) ∧ (ch < 0 → front = []) := by
  induction rest generalizing done fuel with
  | nil =>
    rw [append_nil] at shape
    refine ⟨[], [], rfl, ?_, fun _ => rfl, fun _ => rfl⟩
    cases fuel with
    | zero => rfl
    | succ fuel => rw [scanUtf16Checked, shape, if_neg (lt_irrefl _), bytes_nil, Nat.add_zero]
  | cons c rest ih =>
    have positive := c.utf8Size_pos
    have few := unitsOf_utf16_le (done ++ c :: rest)
    have total : bytes text = bytes before + (bytes done + (c.utf8Size + bytes rest)) + bytes after := by
      rw [whole, shape]
      simp only [bytes_append, bytes_cons]
    have units : unitsOf utf16Size (done ++ c :: rest) =
        unitsOf utf16Size done + (utf16Size c + unitsOf utf16Size rest) := by
      simp [unitsOf]
    have size : bytes line = bytes done + (c.utf8Size + bytes rest) := by rw [shape, bytes_append, bytes_cons]
    rw [bytes_append, bytes_cons] at few
    rw [bytes_cons] at enough
    obtain ⟨fuel, rfl⟩ := Nat.exists_eq_add_of_le' (show 1 ≤ fuel by omega)
    have here : dropBytes text (bytes before + bytes done) = some (c :: rest ++ after) := by
      rw [whole, shape, ← bytes_append, ← append_assoc, append_assoc (before ++ done)]
      exact dropBytes_append _ _
    have sum := @addPos_fits overflowChecks (unitsOf utf16Size done) (utf16Size c) (by omega)
    rw [scanUtf16Checked, if_pos (by omega), here]
    simp only [cons_append, headD_cons, sum, Outcome.bind_ok]
    split
    · rename_i stops
      have stops : ch < ((unitsOf utf16Size done + utf16Size c : Nat) : Int) := stops
      refine ⟨[], c :: rest, rfl, by simp, fun beyond => ?_, fun _ => rfl⟩
      rw [shape, units] at beyond
      omega
    rename_i goes
    have goes : ¬ ch < ((unitsOf utf16Size done + utf16Size c : Nat) : Int) := goes
    obtain ⟨front, back, shape', run, ended, started⟩ := ih (done ++ [c]) (by rw [shape]; simp) fuel (by omega)
    have next : unitsOf utf16Size (done ++ [c]) = unitsOf utf16Size done + utf16Size c := by simp [unitsOf]
    have along : bytes (done ++ [c]) = bytes done + c.utf8Size := by simp
    rw [next, along, ← Nat.add_assoc] at run
    refine ⟨c :: front, back, by rw [shape']; rfl, ?_, ended, fun negative => ?_⟩
    · rw [run, bytes_cons, Nat.add_assoc _ c.utf8Size]
    · omega
end

section
variable {overflowChecks : Bool} {line : Text} {start character units : Nat}

/-- A position of a line that starts at a position: between two characters, and at the line's end for a character beyond it. -/
def IsWithin (start : Nat) (line : Text) (units character : Nat) (result : Outcome TextPos) : Prop :=
  ∃ front back, line = front ++ back ∧ (units < character → back = []) ∧ result = .ok ((start + bytes front : Nat) : Int)

theorem isWithin_start (beyond : units < character) : IsWithin start line units character (.ok (start : Int)) ↔ line = [] := by
  constructor
  · rintro ⟨front, back, rfl, ended, same⟩
    have same : (start : Int) = ((start + bytes front : Nat) : Int) := Outcome.ok.inj same
    have none : front = [] := by
      cases front with
      | nil => rfl
      | cons c front =>
        have positive := c.utf8Size_pos
        rw [bytes_cons] at same
        omega
    rw [ended beyond, none]
    rfl
  · rintro rfl
    exact ⟨[], [], rfl, fun _ => rfl, rfl⟩

/-- What the fast path relies on: the sum fits, and the character is between two characters of the line or beyond it. -/
structure Fits (overflowChecks : Bool) (start : Nat) (line : Text) (character : Nat) : Prop where
  signed : line ≠ [] → character < 2 ^ 31
  sum : line ≠ [] ∨ overflowChecks = true → character < 2 ^ 31 → start + character < 2 ^ 31
  boundary : character < bytes line → ∃ front back, line = front ++ back ∧ bytes front = character

theorem addPos_isWithin (small : start + bytes line < 2 ^ 31) (word : character < 2 ^ 32) :
    IsWithin start line (bytes line) character
        ((addPos overflowChecks start (toTextPos character)).bind fun (sum : Int) => .ok (max (start : Int) (min sum ((start + bytes line : Nat) : Int)))) ↔
      Fits overflowChecks start line character := by
  rcases Nat.lt_or_ge character (2 ^ 31) with signed | large
  · rw [toTextPos_eq signed]
    rcases Nat.lt_or_ge (start + character) (2 ^ 31) with sum | overflow
    · rw [addPos_fits sum, Outcome.bind_ok]
      constructor
      · rintro ⟨front, back, shape, -, same⟩
        have same : max (start : Int) (min (start + character : Nat) (start + bytes line : Nat)) = (start + bytes front : Nat) :=
          Outcome.ok.inj same
        refine ⟨fun _ => signed, fun _ _ => sum, fun inside => ⟨front, back, shape, ?_⟩⟩
        omega
      intro fits
      rcases Nat.lt_or_ge character (bytes line) with inside | beyond
      · obtain ⟨front, back, shape, size⟩ := fits.boundary inside
        refine ⟨front, back, shape, fun beyond => absurd beyond (by omega), congrArg Outcome.ok (?_ : (_ : Int) = _)⟩
        omega
      · refine ⟨line, [], by simp, fun _ => rfl, congrArg Outcome.ok (?_ : (_ : Int) = _)⟩
        omega
    -- the sum of two positions overflows, so the character is beyond the line
    rw [addPos_overflows (by omega) signed overflow]
    cases overflowChecks with
    | true =>
      refine iff_of_false ?_ fun fits => absurd (fits.sum (.inr rfl) signed) (by omega)
      rintro ⟨front, back, -, -, same⟩
      cases same
    | false =>
      have clamped : max (start : Int) (min ((start : Int) + character - 2 ^ 32) (start + bytes line : Nat)) = start := by omega
      rw [if_neg Bool.false_ne_true, Outcome.bind_ok, clamped, isWithin_start (by omega)]
      constructor
      · rintro rfl
        exact ⟨fun some_ => absurd rfl some_, by simp, fun inside => absurd inside (Nat.not_lt_zero _)⟩
      · intro fits
        by_contra some_
        have := fits.sum (.inl some_) signed
        omega
  · have negative := toTextPos_large word large
    have clamped : max (start : Int) (min ((start : Int) + (character - 2 ^ 32)) (start + bytes line : Nat)) = start := by omega
    rw [negative, addPos_negative (by omega) (by omega) (by omega), Outcome.bind_ok, clamped, isWithin_start (by omega)]
    constructor
    · rintro rfl
      exact ⟨fun some_ => absurd rfl some_, fun _ signed => absurd signed (by omega), fun inside => absurd inside (Nat.not_lt_zero _)⟩
    · intro fits
      by_contra some_
      have := fits.signed some_
      omega

theorem scanUtf16Checked_isWithin {text before after : Text} (whole : text = before ++ line ++ after) (fits : bytes text < 2 ^ 31)
    (word : character < 2 ^ 32) :
    IsWithin (bytes before) line (unitsOf utf16Size line) character
        ((scanUtf16Checked overflowChecks text (toTextPos character) (bytes before + bytes line) (bytes before + bytes line) 0
          (bytes before)).bind fun pos => .ok (toTextPos pos)) ↔
      (line ≠ [] → character < 2 ^ 31) := by
  have total : bytes text = bytes before + bytes line + bytes after := by
    rw [whole]
    simp only [bytes_append]
  have few := unitsOf_utf16_le line
  obtain ⟨front, back, shape, run, ended, started⟩ := @scanUtf16Checked_stops overflowChecks text before line after
    (toTextPos character) whole fits line [] rfl (bytes before + bytes line) (Nat.le_add_left _ _)
  have size : bytes line = bytes front + bytes back := by
    rw [← bytes_append]
    exact congrArg bytes shape
  rw [show ((unitsOf utf16Size [] : Nat) : Int) = 0 from rfl, bytes_nil, Nat.add_zero] at run
  rw [run, Outcome.bind_ok, toTextPos_eq (show bytes before + bytes front < 2 ^ 31 by omega)]
  rcases Nat.lt_or_ge character (2 ^ 31) with signed | large
  · rw [toTextPos_eq signed] at ended
    exact iff_of_true ⟨front, back, shape, fun beyond => ended (Int.ofNat_le.mpr (Nat.le_of_lt beyond)), rfl⟩ fun _ => signed
  have negative := toTextPos_large word large
  rw [started (by omega), bytes_nil, Nat.add_zero, isWithin_start (by omega)]
  constructor
  · exact fun none some_ => absurd none some_
  · intro signed
    by_contra some_
    have := signed some_
    omega
end

/-- A position of the line that is asked for, or of the last one. -/
def IsClamped (encoding : PositionEncodingKind) (text : Text) (at_ : Position) (result : Outcome TextPos) : Prop :=
  ∃ before line after, linesOf text = before ++ line :: after ∧ before.length = min at_.line (before.length + after.length) ∧
    IsWithin (bytes before.flatten) line (unitsOf encoding.units line) at_.character result

/-- What the conversion relies on, when the line that is asked for is one of the text. -/
def Addressable (overflowChecks : Bool) (encoding : PositionEncodingKind) (text : Text) (at_ : Position) : Prop :=
  ∀ before line after, linesOf text = before ++ line :: after → before.length = at_.line →
    (line ≠ [] → at_.character < 2 ^ 31) ∧
      (text.all isAscii = true ∨ encoding = .utf8 → Fits overflowChecks (bytes before.flatten) line at_.character)

variable {overflowChecks : Bool} {converters : Converters} {script : Script} {at_ : Position}

theorem lines_determined {lines before before' after after' : List Text} {line line' : Text} (shape : lines = before ++ line :: after)
    (shape' : lines = before' ++ line' :: after') (same : before.length = before'.length) :
    before = before' ∧ line = line' ∧ after = after' := by
  obtain ⟨rfl, rest⟩ := append_inj (shape.symm.trans shape') same
  exact ⟨rfl, List.cons.inj rest⟩

theorem exists_line {lines : List Text} {k : Nat} (inside : k < lines.length) :
    ∃ before, before.length = k ∧ ∃ line after, lines = before ++ line :: after := by
  refine ⟨lines.take k, length_take_of_le inside.le, lines[k], lines.drop (k + 1), ?_⟩
  rw [getElem_cons_drop, take_append_drop]

theorem text_eq {text line : Text} {before after : List Text} (shape : linesOf text = before ++ line :: after) :
    text = before.flatten ++ line ++ after.flatten := by
  rw [← linesOf_flatten text, shape]
  simp

theorem lineStarts_length (text : Text) : (computeLspLineStarts text).lineStarts.length = (linesOf text).length := by
  rw [computeLspLineStarts_eq, linesOf_length text 0, length_map, length_cons]

theorem linesOf_few (text : Text) : (linesOf text).length ≤ bytes text + 1 := by
  have few := lineEnds_length text [] 0
  rw [linesOf_length text 0]
  omega

theorem lineStarts_linesOf {text line : Text} {before after : List Text} (fits : bytes text < 2 ^ 31)
    (shape : linesOf text = before ++ line :: after) :
    (computeLspLineStarts text).lineStarts.getD before.length 0 = ((bytes before.flatten : Nat) : Int) := by
  have start := lineStart_linesOf shape 0
  have total := congrArg bytes (text_eq shape)
  simp only [bytes_append] at total
  rw [computeLspLineStarts_eq, getD_eq_getElem?_getD, List.getElem?_map, start, Nat.zero_add, Option.map_some, Option.getD_some]
  exact toTextPos_eq (by omega)

section
variable (knows : converters.getLineMap script.fileName = computeLspLineStarts script.text) (fits : bytes script.text < 2 ^ 31)
include knows fits

theorem past_last (word : at_.line < 2 ^ 32) (past : (linesOf script.text).length ≤ at_.line) :
    converters.lineAndCharacterToPositionChecked overflowChecks script at_ = .ok ((bytes script.text : Nat) : Int) := by
  have index : (linesOf script.text).length ≤ toUsize (toTextPos at_.line) := by
    rcases Nat.lt_or_ge at_.line (2 ^ 31) with signed | large
    · rwa [toTextPos_eq signed, toUsize_eq signed]
    · have negative := toTextPos_large word large
      unfold toUsize
      omega
  unfold Converters.lineAndCharacterToPositionChecked
  simp only [knows, lineStarts_length]
  rw [if_pos index]
  exact congrArg Outcome.ok (toTextPos_eq fits)

theorem in_line {before after : List Text} {line : Text}
    (shape : linesOf script.text = before ++ line :: after) (here : before.length = at_.line) :
    converters.lineAndCharacterToPositionChecked overflowChecks script at_ =
      if script.text.all isAscii = true ∨ converters.positionEncoding = .utf8 then
        (addPos overflowChecks (bytes before.flatten : Nat) (toTextPos at_.character)).bind fun (sum : Int) =>
          .ok (max ((bytes before.flatten : Nat) : Int) (min sum ((bytes before.flatten + bytes line : Nat) : Int)))
      else
        (scanUtf16Checked overflowChecks script.text (toTextPos at_.character) (bytes before.flatten + bytes line)
          (bytes before.flatten + bytes line) 0 (bytes before.flatten)).bind fun pos => .ok (toTextPos pos) := by
  have few := linesOf_few script.text
  have count : (linesOf script.text).length = at_.line + (after.length + 1) := by rw [shape, ← here, length_append, length_cons]
  have total : bytes script.text = bytes before.flatten + bytes line + bytes after.flatten := by
    rw [text_eq shape]
    simp only [bytes_append]
  have index : toUsize (toTextPos at_.line) = at_.line := by
    rw [toTextPos_eq (by omega), toUsize_eq (by omega)]
  have start := lineStarts_linesOf fits shape
  have stop : (if at_.line + 1 < (linesOf script.text).length then (computeLspLineStarts script.text).lineStarts.getD (at_.line + 1) 0
      else toTextPos (bytes script.text)) = ((bytes before.flatten + bytes line : Nat) : Int) := by
    cases after with
    | nil =>
      rw [if_neg (by rw [count]; exact lt_irrefl _), toTextPos_eq fits, total]
      simp
    | cons next after =>
      have next_ := @lineStarts_linesOf script.text next (before ++ [line]) after fits (by simp [shape])
      rw [length_append, length_singleton, here] at next_
      rw [if_pos (by rw [count, length_cons]; omega), next_]
      simp
  rw [here] at start
  unfold Converters.lineAndCharacterToPositionChecked
  simp only [knows, lineStarts_length, index, start, stop]
  rw [if_neg (by omega), toUsize_eq (by omega), toUsize_eq (by omega), computeLspLineStarts_eq]
  rfl
end

/-- The position is clamped to its line exactly if the character is addressable there. -/
theorem isClamped_iff (knows : converters.getLineMap script.fileName = computeLspLineStarts script.text)
    (encoding : converters.positionEncoding = .utf8 ∨ converters.positionEncoding = .utf16)
    (fits : bytes script.text < 2 ^ 31) (line : at_.line < 2 ^ 32) (character : at_.character < 2 ^ 32) :
    IsClamped converters.positionEncoding script.text at_ (converters.lineAndCharacterToPositionChecked overflowChecks script at_) ↔
      Addressable overflowChecks converters.positionEncoding script.text at_ := by
  rcases Nat.lt_or_ge at_.line (linesOf script.text).length with inside | past
  · obtain ⟨before, here, line, after, shape⟩ := exists_line inside
    have whole := text_eq shape
    have total := congrArg bytes whole
    simp only [bytes_append] at total
    have clamped : ∀ result, IsClamped converters.positionEncoding script.text at_ result ↔
        IsWithin (bytes before.flatten) line (unitsOf converters.positionEncoding.units line) at_.character result := by
      intro result
      constructor
      · rintro ⟨before', line', after', shape', clamped, within⟩
        have count := congrArg List.length shape'
        rw [length_append, length_cons] at count
        obtain ⟨rfl, rfl, -⟩ := lines_determined shape shape' (by omega)
        exact within
      · exact fun within => ⟨before, line, after, shape, by omega, within⟩
    have addressable : Addressable overflowChecks converters.positionEncoding script.text at_ ↔
        (line ≠ [] → at_.character < 2 ^ 31) ∧
          (script.text.all isAscii = true ∨ converters.positionEncoding = .utf8 →
            Fits overflowChecks (bytes before.flatten) line at_.character) := by
      constructor
      · exact fun every => every before line after shape here
      · intro this before' line' after' shape' here'
        obtain ⟨rfl, rfl, -⟩ := lines_determined shape shape' (here.trans here'.symm)
        exact this
    rw [clamped, addressable, in_line knows fits shape here]
    split
    · rename_i fast
      have ascii : line.all isAscii = true ∨ converters.positionEncoding = .utf8 := by
        refine fast.imp_left fun all => ?_
        rw [whole, all_append, all_append, Bool.and_eq_true, Bool.and_eq_true] at all
        exact all.1.2
      rw [unitsOf_fast encoding ascii, addPos_isWithin (by omega) character]
      exact ⟨fun fits => ⟨fits.signed, fun _ => fits⟩, fun both => both.2 fast⟩
    · rename_i slow
      have utf16 : converters.positionEncoding = .utf16 := encoding.resolve_left fun utf8 => slow (.inr utf8)
      have scanned := @scanUtf16Checked_isWithin overflowChecks line at_.character script.text before.flatten after.flatten whole fits character
      rw [utf16] at slow ⊢
      exact scanned.trans ⟨fun signed => ⟨signed, fun fast => absurd fast slow⟩, fun both => both.1⟩
  · obtain ⟨before, line, shape⟩ := eq_nil_or_concat (linesOf script.text) |>.resolve_left (by
      obtain ⟨line, lines, shape⟩ := linesOf_cons script.text
      rw [shape]
      exact cons_ne_nil _ _)
    rw [concat_eq_append] at shape
    have count := congrArg List.length shape
    rw [length_append, length_singleton] at count
    refine iff_of_true ⟨before, line, [], shape, by rw [length_nil]; omega, line, [], by simp, fun _ => rfl, ?_⟩ ?_
    · rw [past_last knows fits ‹_› past]
      have total := congrArg bytes (text_eq shape)
      rw [flatten_nil, append_nil, bytes_append] at total
      rw [total]
    · intro before' line' after' shape' here'
      have count' := congrArg List.length shape'
      rw [length_append, length_cons] at count'
      omega

theorem isClamped_iff_pair :
    let converters : Converters := ⟨fun _ => computeLspLineStarts "é😀\nb".toList, .utf16⟩
    let script : Script := ⟨"test.ts", "é😀\nb".toList⟩
    IsClamped converters.positionEncoding script.text ⟨0, 2⟩ (converters.lineAndCharacterToPositionChecked true script ⟨0, 2⟩) ↔
      Addressable true converters.positionEncoding script.text ⟨0, 2⟩ :=
  @isClamped_iff true ⟨fun _ => computeLspLineStarts "é😀\nb".toList, .utf16⟩ ⟨"test.ts", "é😀\nb".toList⟩ ⟨0, 2⟩ rfl (.inr rfl)
    (by decide) (by decide) (by decide)

/-- A character from 2 GiB on is one before the line, a sum that overflows aborts, and a UTF-8 character is not moved
to a boundary. -/
theorem largeCharacter_lost :
    let converters : Text → PositionEncodingKind → Converters := fun text encoding => ⟨fun _ => computeLspLineStarts text, encoding⟩
    let script : Text → Script := fun text => ⟨"test.ts", text⟩
    ¬ IsClamped .utf16 "ab".toList ⟨0, 2147483648⟩
        ((converters "ab".toList .utf16).lineAndCharacterToPositionChecked true (script "ab".toList) ⟨0, 2147483648⟩) ∧
      (converters "a\nb".toList .utf16).lineAndCharacterToPositionChecked true (script "a\nb".toList) ⟨1, 2147483647⟩ =
        .panic addOverflow ∧
      (converters "a\nb".toList .utf16).lineAndCharacterToPositionChecked false (script "a\nb".toList) ⟨1, 2147483647⟩ = .ok 2 ∧
      (converters "é".toList .utf8).lineAndCharacterToPositionChecked true (script "é".toList) ⟨0, 1⟩ = .ok 1 := by
  intro converters script
  refine ⟨?_, by decide +kernel, by decide +kernel, by decide +kernel⟩
  have start : (converters "ab".toList .utf16).lineAndCharacterToPositionChecked true (script "ab".toList) ⟨0, 2147483648⟩ = .ok 0 := by
    decide +kernel
  rintro ⟨before, line, after, shape, -, within⟩
  obtain ⟨rfl, rfl, rfl⟩ := @lines_determined _ before [] after [] line "ab".toList shape rfl (by
    have count := congrArg List.length shape
    rw [length_append, length_cons, show (linesOf "ab".toList).length = 1 from rfl] at count
    rw [length_nil]
    omega)
  rw [start] at within
  exact absurd ((isWithin_start (by decide +kernel)).mp within) (by decide)

end TypeScriptRs.Lsconv
