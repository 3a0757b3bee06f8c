import TypeScriptRs.Syntax.StringLiterals

/-! What the scanner does with an escape, between the characters of a text. -/
namespace TypeScriptRs.Syntax
open Utf8 Machine List Option Outcome Bool

section
variable {c : Char} {text rest : Text} {s : Scanner} {k : Nat}

def byteChar (text : Text) (k : Nat) : Char := ((encoded text)[k]?.map fun byte => Char.ofNat byte.toNat).getD '\x00'

def Scanner.At (s : Scanner) (rest : Text) : Prop := dropBytes s.text s.pos = some rest

theorem Scanner.At.split (at_ : s.At rest) : ∃ before, s.text = before ++ rest ∧ bytes before = s.pos := dropBytes_eq_some at_

theorem Scanner.At.byte (at_ : s.At rest) (k : Nat) : (encoded s.text)[s.pos + k]? = (encoded rest)[k]? := by
  obtain ⟨before, whole, pos⟩ := at_.split
  rw [whole, ← pos, encoded_append, ← length_encoded, List.getElem?_append_right (Nat.le_add_right _ _), Nat.add_sub_cancel_left]

theorem Scanner.At.charAt (at_ : s.At rest) (k : Nat) : s.charAt k = byteChar rest k := by
  unfold Scanner.charAt byteChar
  rw [at_.byte]

theorem Scanner.At.move (at_ : s.At (c :: rest)) {size : Nat} (whole : c.utf8Size = size) : (s.move (s.pos + size)).At rest := by
  obtain ⟨before, shape, pos⟩ := at_.split
  unfold Scanner.At Scanner.move
  have cut : before ++ c :: rest = (before ++ [c]) ++ rest := by simp
  have place : s.pos + size = bytes (before ++ [c]) := by rw [bytes_append, bytes_cons, bytes_nil, Nat.add_zero, pos, whole]
  rw [shape, cut, place]
  exact dropBytes_append _ _

theorem byteChar_nil (k : Nat) : byteChar [] k = '\x00' := rfl

theorem byteChar_zero (ascii : c.toNat < 0x80) (rest : Text) : byteChar (c :: rest) 0 = c := by
  have byte : (UInt8.ofNat c.toNat).toNat = c.toNat := UInt8.toNat_ofNat_of_lt' (Nat.lt_trans ascii (by decide))
  unfold byteChar
  rw [encoded_cons, utf8EncodeChar_ascii ascii]
  change Char.ofNat (UInt8.ofNat c.toNat).toNat = c
  rw [byte, Char.ofNat_toNat]

theorem byteChar_succ (ascii : c.toNat < 0x80) (rest : Text) (k : Nat) : byteChar (c :: rest) (k + 1) = byteChar rest k := by
  unfold byteChar
  rw [encoded_cons, utf8EncodeChar_ascii ascii]
  rfl

/-- The first bytes of a character beyond ASCII. They are no ASCII characters, and the marked ones are known by them. -/
theorem wide_bytes (wide : ¬c.toNat < 0x80) : ∃ first second third, String.utf8EncodeChar c = first :: second :: third ∧
    (0x80 ≤ first.toNat ∧ 0x80 ≤ second.toNat) ∧ (first.toNat = 0xC2 → second.toNat = 0x85 → c.toNat = 0x85) ∧
    (first.toNat = 0xE2 → ∃ last, third = [last] ∧
      (second.toNat = 0x80 → last.toNat = 0xA8 ∨ last.toNat = 0xA9 → c.toNat = 0x2028 ∨ c.toNat = 0x2029)) := by
  have byte (n : Nat) (small : n < 256) : (UInt8.ofNat n).toNat = n := UInt8.toNat_ofNat_of_lt' small
  have number : c.val.toNat = c.toNat := rfl
  unfold String.utf8EncodeChar
  dsimp only
  rw [number, if_neg (by omega)]
  split
  · refine ⟨_, _, _, rfl, ?_, ?_, ?_⟩
    all_goals rw [byte _ (by omega)]
    · rw [byte _ (by omega)]
      omega
    · rw [byte _ (by omega)]
      omega
    · intro same
      omega
  split
  · refine ⟨_, _, _, rfl, ?_, ?_, ?_⟩
    all_goals rw [byte _ (by omega)]
    · rw [byte _ (by omega)]
      omega
    · intro same
      omega
    · refine fun same => ⟨_, rfl, ?_⟩
      rw [byte _ (by omega), byte _ (by omega)]
      omega
  · refine ⟨_, _, _, rfl, ?_, ?_, ?_⟩
    all_goals rw [byte _ (by omega)]
    · rw [byte _ (by omega)]
      omega
    · intro same
      omega
    · intro same
      omega

theorem byteChar_wide (wide : ¬c.toNat < 0x80) (text : Text) : 0x80 ≤ (byteChar (c :: text) 0).toNat := by
  obtain ⟨first, second, third, shape, ⟨large, -⟩, -⟩ := wide_bytes wide
  have small : first.toNat < 256 := first.toNat_lt
  have valid : first.toNat.isValidChar := .inl (by omega)
  have number : (Char.ofNat first.toNat).toNat = first.toNat := by
    rw [Char.ofNat, dif_pos valid]
    rfl
  have byte : byteChar (c :: text) 0 = Char.ofNat first.toNat := by
    unfold byteChar
    rw [encoded_cons, shape]
    rfl
  rw [byte, number]
  exact large

theorem any_byteChar {p : Char → Bool} (null : p '\x00' = false) (ascii : ∀ c, p c = true → c.toNat < 0x80) (text : Text) :
    p (byteChar text 0) = text.head?.any p := by
  cases text with
  | nil => exact null
  | cons c text =>
    by_cases narrow : c.toNat < 0x80
    · rw [byteChar_zero narrow]
      rfl
    have other : p c = false := eq_false_iff.mpr fun holds => narrow (ascii c holds)
    change p (byteChar (c :: text) 0) = p c
    rw [other, eq_false_iff]
    intro holds
    have small := ascii _ holds
    have large := byteChar_wide narrow text
    omega

theorem byteChar_eq_iff {x : Char} (null : x ≠ '\x00') (ascii : x.toNat < 0x80) (text : Text) :
    byteChar text 0 = x ↔ text.head? = some x := by
  have same := @any_byteChar (· == x) (beq_eq_false_iff_ne.mpr null.symm) (fun c equal => by rwa [eq_of_beq equal]) text
  rw [← beq_iff_eq, same]
  cases text with
  | nil => exact iff_of_false Bool.false_ne_true fun same => by cases same
  | cons c text => simp
end

section
variable {text rest rest' : Text} {s s' s'' : Scanner} {reported reported' : Prop} {pos : Nat}

/-- The scanner came from one place of the text to another, and reported errors on the way or not. -/
structure Reaches (s s' : Scanner) (rest : Text) (reported : Prop) : Prop where
  same : s'.text = s.text
  place : s'.At rest
  diagnostics : ∃ added, s'.diagnostics = s.diagnostics ++ added ∧ (added ≠ [] ↔ reported)
  unterminated : .unterminated ∈ s'.tokenFlags ↔ .unterminated ∈ s.tokenFlags

namespace Reaches

theorem refl (place : s.At rest) : Reaches s s rest False := ⟨rfl, place, ⟨[], by simp⟩, Iff.rfl⟩

theorem trans (first : Reaches s s' rest reported) (then_ : Reaches s' s'' rest' reported') :
    Reaches s s'' rest' (reported ∨ reported') := by
  obtain ⟨added, whole, some_⟩ := first.diagnostics
  obtain ⟨added', whole', some_'⟩ := then_.diagnostics
  refine ⟨then_.same.trans first.same, then_.place, ⟨added ++ added', ?_, ?_⟩, then_.unterminated.trans first.unterminated⟩
  · rw [whole', whole, append_assoc]
  · rw [← some_, ← some_', ne_eq, append_eq_nil_iff, not_and_or]

variable (reaches : Reaches s s' rest reported)
include reaches

theorem congr (same : reported ↔ reported') : Reaches s s' rest reported' := by
  obtain ⟨added, whole, some_⟩ := reaches.diagnostics
  exact ⟨reaches.same, reaches.place, ⟨added, whole, some_.trans same⟩, reaches.unterminated⟩

theorem move (place : (s'.move pos).At rest') : Reaches s (s'.move pos) rest' reported :=
  ⟨reaches.same, place, reaches.diagnostics, reaches.unterminated⟩

theorem flag {tokenFlag : TokenFlag} (other : tokenFlag ≠ .unterminated) : Reaches s (s'.flag tokenFlag) rest reported := by
  refine ⟨reaches.same, reaches.place, reaches.diagnostics, ?_⟩
  rw [← reaches.unterminated]
  exact Finset.mem_insert.trans (or_iff_right other.symm)

theorem errorAt (message : Message) (start length : Nat) (args : List Text) :
    Reaches s (s'.errorAt message start length args) rest True := by
  obtain ⟨added, whole, -⟩ := reaches.diagnostics
  refine ⟨reaches.same, reaches.place, ⟨added ++ [⟨message, start, length, args⟩], ?_, by simp⟩, reaches.unterminated⟩
  rw [Scanner.errorAt, whole, append_assoc]

end Reaches

theorem Scanner.At.cut (at_ : s.At (text ++ rest)) {stop : Nat} (length : stop = s.pos + bytes text) : s.cut s.pos stop = .ok text := by
  obtain ⟨before, whole, pos⟩ := at_.split
  unfold Scanner.cut
  rw [length, whole, ← pos, ← append_assoc, slice_append]

theorem Scanner.At.moveBy (at_ : s.At (text ++ rest)) {stop : Nat} (length : stop = s.pos + bytes text) : (s.move stop).At rest := by
  obtain ⟨before, whole, pos⟩ := at_.split
  unfold Scanner.At Scanner.move
  rw [length, whole, ← pos, ← append_assoc, ← bytes_append]
  exact dropBytes_append _ _

theorem Scanner.At.cut_to (place : s.At text) (place' : s'.At rest) (same : s'.text = s.text) (suffix : rest <:+ text) :
    ∃ front, s'.cut s.pos s'.pos = .ok front := by
  obtain ⟨front, rfl⟩ := suffix
  obtain ⟨before, whole, pos⟩ := place.split
  obtain ⟨before', whole', pos'⟩ := place'.split
  have all : before' = before ++ front := by
    refine @List.append_cancel_right _ _ rest _ ?_
    rw [← whole', same, whole, append_assoc]
  refine ⟨front, ?_⟩
  unfold Scanner.cut
  rw [whole', ← pos', ← pos, all, bytes_append, slice_append]

theorem Scanner.At.ends_iff (place : s.At rest) : bytes s.text ≤ s.pos ↔ rest = [] := by
  obtain ⟨before, whole, pos⟩ := place.split
  rw [whole, ← pos, bytes_append]
  cases rest with
  | nil => exact iff_of_true (Nat.le_refl _) rfl
  | cons c rest =>
    have size := c.utf8Size_pos
    rw [bytes_cons]
    exact iff_of_false (by omega) (by simp)

theorem Scanner.At.char_eq_iff {x : Char} (place : s.At rest) (null : x ≠ '\x00') (ascii : x.toNat < 0x80) :
    s.char = x ↔ rest.head? = some x := by
  unfold Scanner.char
  rw [place.charAt]
  exact byteChar_eq_iff null ascii rest
end

section
variable {c : Char} {text rest : Text} {s : Scanner} {count : Nat}

theorem utf8Size_ascii (ascii : c.toNat < 0x80) : c.utf8Size = 1 := by
  rw [Char.utf8Size_eq_one_iff, UInt32.le_iff_toNat_le]
  exact Nat.le_of_lt_succ ascii

theorem bytes_ascii (ascii : ∀ c ∈ text, c.toNat < 0x80) : bytes text = text.length := by
  induction text with
  | nil => rfl
  | cons c text ih =>
    obtain ⟨here, later⟩ := forall_mem_cons.mp ascii
    rw [bytes_cons, utf8Size_ascii here, ih later, length_cons, Nat.add_comm]

theorem length_le_bytes (text : Text) : text.length ≤ bytes text := by
  induction text with
  | nil => exact Nat.le_refl _
  | cons c text ih =>
    have size := c.utf8Size_pos
    rw [length_cons, bytes_cons]
    omega

theorem hexDigit_ascii (hex : isHexDigit c = true) : c.toNat < 0x80 := by
  obtain ⟨n, value⟩ := isSome_iff_exists.mp hex
  unfold hexValue at value
  split at value
  · rename_i range
    exact Nat.lt_of_le_of_lt (Char.le_def.mp range.2) (by decide)
  split at value
  · rename_i range
    exact Nat.lt_of_le_of_lt (Char.le_def.mp range.2) (by decide)
  · split at value
    · rename_i range
      exact Nat.lt_of_le_of_lt (Char.le_def.mp range.2) (by decide)
    · cases value

theorem bytes_hexDigits (hex : ∀ c ∈ text, isHexDigit c = true) : bytes text = text.length :=
  bytes_ascii fun c listed => hexDigit_ascii (hex c listed)

/-- The digits that are taken: at most a given number of them, or as many as there are. -/
def takenDigits (scanAsManyAsPossible : Bool) (count : Nat) (text : Text) : Text :=
  if scanAsManyAsPossible then text.takeWhile isHexDigit else leadingHexDigits count text

theorem takenDigits_hex (many : Bool) (count : Nat) (text : Text) : ∀ d ∈ takenDigits many count text, isHexDigit d = true := by
  unfold takenDigits
  split
  · exact fun _ listed => mem_takeWhile_imp listed
  · exact mem_leadingHexDigits

theorem takenDigits_start (many : Bool) (count : Nat) (text : Text) : takenDigits many count text <+: text := by
  unfold takenDigits
  split
  · exact takeWhile_prefix _
  · exact (List.takeWhile_prefix _).trans (List.take_prefix _ _)

theorem takenDigits_cons (many : Bool) (count : Nat) (c : Char) (text : Text) : takenDigits many count (c :: text) =
    if (0 < count || many) && isHexDigit c then c :: takenDigits many (count - 1) text else [] := by
  cases many with
  | true =>
    rw [Bool.or_true, Bool.true_and]
    exact takeWhile_cons
  | false =>
    cases count with
    | zero => rfl
    | succ count => exact takeWhile_cons

theorem takenDigits_nil (many : Bool) (count : Nat) : takenDigits many count [] = [] :=
  prefix_nil.mp (takenDigits_start many count [])

theorem Scanner.At.isHexDigit_char (place : s.At text) : isHexDigit s.char = text.head?.any isHexDigit := by
  unfold Scanner.char
  rw [place.charAt]
  exact any_byteChar rfl (fun _ hex => hexDigit_ascii hex) text

theorem Scanner.hexDigits_eq {minCount : Nat} {many : Bool} {fuel : Nat} (place : s.At text) (enough : text.length ≤ fuel) :
    Scanner.hexDigits minCount many fuel count s =
      (count + (takenDigits many (minCount - count) text).length, s.move (s.pos + (takenDigits many (minCount - count) text).length)) := by
  induction fuel generalizing text count s with
  | zero =>
    rw [eq_nil_of_length_eq_zero (Nat.eq_zero_of_le_zero enough), takenDigits_nil]
    rfl
  | succ fuel ih =>
    rw [Scanner.hexDigits, place.isHexDigit_char]
    cases text with
    | nil =>
      rw [takenDigits_nil, List.head?_nil, any_none, Bool.and_false, if_neg Bool.false_ne_true]
      rfl
    | cons c text =>
      have less : decide (count < minCount) = decide (0 < minCount - count) := decide_eq_decide.mpr Nat.sub_pos_iff_lt.symm
      rw [takenDigits_cons, List.head?_cons, any_some, less]
      by_cases taken : ((decide (0 < minCount - count) || many) && isHexDigit c) = true
      · have narrow := utf8Size_ascii (hexDigit_ascii ((and_eq_true _ _).mp taken).2)
        rw [if_pos taken, if_pos taken, ih (place.move narrow) (Nat.le_of_succ_le_succ enough), Nat.sub_add_eq, length_cons]
        refine Prod.ext ?_ (congrArg s.move ?_)
        · exact Nat.add_right_comm _ _ _
        · exact Nat.add_right_comm _ _ _
      · rw [if_neg taken, if_neg taken]
        rfl

theorem hexValue_toLower (hex : isHexDigit c = true) : hexValue c.toLower = hexValue c := by
  have each : ∀ n < 0x80, hexValue (Char.ofNat n).toLower = hexValue (Char.ofNat n) := by decide
  have here := each c.toNat (hexDigit_ascii hex)
  rwa [Char.ofNat_toNat] at here

theorem u32FromStrRadix_hex (some_ : text ≠ []) (hex : ∀ d ∈ text, isHexDigit d = true) :
    u32FromStrRadix text 16 = if hexNumber text < 2 ^ 32 then some (hexNumber text) else none := by
  have digits : ∀ d ∈ text, (hexValue d).any (· < 16) := by
    intro d listed
    obtain ⟨n, value⟩ := isSome_iff_exists.mp (hex d listed)
    rw [value]
    exact decide_eq_true (hexValue_lt value)
  exact if_congr ((and_iff_right some_).trans (and_iff_right digits)) rfl rfl

theorem hexNumber_toLower (hex : ∀ d ∈ text, isHexDigit d = true) : hexNumber (text.map Char.toLower) = hexNumber text := by
  unfold hexNumber
  rw [foldl_map]
  refine foldl_ext _ _ 0 fun n d listed => ?_
  rw [hexValue_toLower (hex d listed)]

theorem u32FromStrRadix_toLower (some_ : text ≠ []) (hex : ∀ d ∈ text, isHexDigit d = true) :
    u32FromStrRadix (text.map Char.toLower) 16 = if hexNumber text < 2 ^ 32 then some (hexNumber text) else none := by
  have lower : ∀ d ∈ text.map Char.toLower, isHexDigit d = true := by
    intro d listed
    obtain ⟨d, digit, rfl⟩ := mem_map.mp listed
    rw [isHexDigit, hexValue_toLower (hex d digit)]
    exact hex d digit
  rw [u32FromStrRadix_hex (fun none => some_ (map_eq_nil_iff.mp none)) lower, hexNumber_toLower hex]

theorem Scanner.At.scanHexDigits (place : s.At text) (minCount : Nat) (many : Bool) : ∃ s', s.scanHexDigits minCount many =
      .ok (if (takenDigits many minCount text).length < minCount then [] else (takenDigits many minCount text).map Char.toLower, s') ∧
    Reaches s s' (text.drop (takenDigits many minCount text).length) False := by
  obtain ⟨before, whole, pos⟩ := place.split
  have enough : text.length ≤ bytes s.text - s.pos := by
    rw [whole, bytes_append, pos, Nat.add_sub_cancel_left]
    exact length_le_bytes text
  have size := bytes_hexDigits (takenDigits_hex many minCount text)
  have loop := @Scanner.hexDigits_eq text s 0 minCount many _ place enough
  rw [Nat.zero_add, Nat.sub_zero] at loop
  have shape := prefix_iff_eq_append.mp (takenDigits_start many minCount text)
  have place' := place
  rw [← shape] at place'
  refine ⟨s.move (s.pos + (takenDigits many minCount text).length), ?_, (Reaches.refl place).move (place'.moveBy (congrArg _ size.symm))⟩
  unfold Scanner.scanHexDigits
  rw [loop]
  dsimp only
  split
  · rfl
  have here : (s.move (s.pos + (takenDigits many minCount text).length)).cut s.pos
      (s.pos + (takenDigits many minCount text).length) = .ok (takenDigits many minCount text) :=
    place'.cut (congrArg (s.pos + ·) size.symm)
  change (Scanner.cut _ s.pos (s.pos + (takenDigits many minCount text).length) >>= _) = _
  rw [here]
  rfl
end

section
variable {text after : Text} {s : Scanner}

/-- A number is scanned as it is read: to the same place, with an error where one is read, and with the number where the grammar has it. -/
def ScansNumber (s : Scanner) (outcome : Outcome (Option Nat × Scanner)) (read : Reading × Text) : Prop :=
  ∃ code s', outcome = .ok (code, s') ∧ Reaches s s' read.2 (¬read.1.Quiet) ∧ (read.1.Grammatical → ∃ n ∈ code, n ≤ 0x10FFFF ∧ read.1 = ofCodePoint n)

theorem not_quiet_refused : ¬Reading.refused.Quiet := fun both => both.2 rfl

theorem quiet_ofCodePoint (code : Nat) : (ofCodePoint code).Quiet := by
  unfold ofCodePoint
  split
  · exact ⟨by simp, by simp⟩
  · exact ⟨by simp, by simp⟩

theorem closeExtendedEscape_scans (place : s.At after) (start number : Nat) :
    ScansNumber s (.ok (s.closeExtendedEscape true start number))
      (if after.head? = some '\x7d' then (if number ≤ 0x10FFFF then ofCodePoint number else .refused, after.tail)
        else (.refused, after)) := by
  -- the error about the number comes before that about the brace
  obtain ⟨s₁, first, large⟩ : ∃ s₁, (if 0x10FFFF < number ∧ true = true then
      s.errorAt .extendedUnicodeEscapeValueMustBeInRange (start + 1) (s.pos - (start + 1)) [] else s) = s₁ ∧
        Reaches s s₁ after (0x10FFFF < number) := by
    refine ⟨_, rfl, ?_⟩
    split
    · rename_i large
      exact ((Reaches.refl place).errorAt _ _ _ _).congr (iff_of_true trivial large.1)
    · rename_i small
      exact (Reaches.refl place).congr (iff_of_false id fun large => small ⟨large, rfl⟩)
  unfold Scanner.closeExtendedEscape
  dsimp only
  rw [first]
  by_cases closed : after.head? = some '\x7d'
  · obtain ⟨rest, rfl⟩ := List.head?_eq_some_iff.mp closed
    have open_ : ¬bytes s₁.text ≤ s₁.pos := fun none => by cases large.place.ends_iff.mp none
    have brace : s₁.char = '\x7d' := (large.place.char_eq_iff (by decide) (by decide)).mpr rfl
    have narrow : '\x7d'.utf8Size = 1 := by decide
    have moved := large.move (large.place.move narrow)
    rw [if_pos closed, if_neg open_, if_pos brace]
    by_cases small : number ≤ 0x10FFFF
    · rw [if_pos small, if_neg (by simp [small])]
      refine ⟨_, _, rfl, ?_, fun _ => ⟨number, rfl, small, rfl⟩⟩
      exact (moved.flag (by simp)).congr (iff_of_false (Nat.not_lt.mpr small) (not_not_intro (quiet_ofCodePoint number)))
    · rw [if_neg small, if_pos (.inl (Nat.lt_of_not_le small))]
      refine ⟨_, _, rfl, ?_, fun grammatical => absurd grammatical not_grammatical_refused⟩
      exact (moved.flag (by simp)).congr (iff_of_true (Nat.lt_of_not_le small) not_quiet_refused)
  · have brace : ¬s₁.char = '\x7d' := fun same => closed ((large.place.char_eq_iff (by decide) (by decide)).mp same)
    have refused (message : Message) : ScansNumber s
        (.ok (none, (s₁.errorAt message s₁.pos 0 []).flag .containsInvalidEscape)) (.refused, after) := by
      refine ⟨_, _, rfl, ?_, fun grammatical => absurd grammatical not_grammatical_refused⟩
      exact ((large.errorAt _ _ _ _).flag (by simp)).congr (iff_of_true trivial not_quiet_refused)
    split
    · rw [if_pos (.inr rfl)]
      exact refused _
    · rw [if_pos (.inr rfl)]
      exact refused _

theorem scanUnicodeEscape_braced (place : (s.move (s.pos + 2)).At ('\x7b' :: text)) :
    ScansNumber (s.move (s.pos + 2)) (s.scanUnicodeEscape true) (readBraced text) := by
  have brace : (s.move (s.pos + 2)).char = '\x7b' := (place.char_eq_iff (by decide) (by decide)).mpr rfl
  have narrow : '\x7b'.utf8Size = 1 := by decide
  have inside := place.move narrow
  have whole := takeWhile_append_dropWhile (p := isHexDigit) (l := text)
  have after : text.drop (text.takeWhile isHexDigit).length = text.dropWhile isHexDigit := by
    conv => lhs; arg 2; rw [← whole]
    exact drop_left
  obtain ⟨s₁, scanned, taken⟩ := inside.scanHexDigits 1 true
  have digits : takenDigits true 1 text = text.takeWhile isHexDigit := rfl
  have hex := takenDigits_hex true 1 text
  have reached := ((Reaches.refl place).move inside).trans taken
  rw [digits] at scanned hex reached
  rw [after] at reached
  unfold Scanner.scanUnicodeEscape readBraced
  dsimp only
  rw [if_pos brace, scanned, monad_bind, bind_ok]
  by_cases none : text.takeWhile isHexDigit = []
  · rw [none, length_nil, if_pos Nat.one_pos, if_pos rfl, if_pos rfl, if_pos rfl]
    rw [none, nil_append] at whole
    rw [whole] at reached
    refine ⟨_, _, rfl, ?_, fun grammatical => absurd grammatical not_grammatical_refused⟩
    exact ((reached.flag (by simp)).errorAt _ _ _ _).congr (iff_of_true trivial not_quiet_refused)
  have long : ¬(text.takeWhile isHexDigit).length < 1 := fun short => none (eq_nil_of_length_eq_zero (Nat.lt_one_iff.mp short))
  have some_ : (text.takeWhile isHexDigit).map Char.toLower ≠ [] := fun same => none (map_eq_nil_iff.mp same)
  rw [if_neg long, if_neg some_, if_neg none, u32FromStrRadix_toLower none hex]
  by_cases large : 2 ^ 32 ≤ hexNumber (text.takeWhile isHexDigit)
  · rw [if_neg (Nat.not_lt.mpr large), if_pos large]
    refine ⟨_, _, rfl, ?_, fun grammatical => absurd grammatical not_grammatical_overflow⟩
    exact (reached.flag (by simp)).congr (by simp [Reading.Quiet])
  rw [if_pos (Nat.lt_of_not_le large), if_neg large]
  dsimp only
  rw [if_pos brace]
  obtain ⟨code, s', closes, reached', known⟩ := closeExtendedEscape_scans reached.place (s.move (s.pos + 2)).pos
    (hexNumber (text.takeWhile isHexDigit))
  exact ⟨code, s', closes, (reached.trans reached').congr (by simp), known⟩

theorem scanUnicodeEscape_four (place : (s.move (s.pos + 2)).At text) (open_ : text.head? ≠ some '\x7b') :
    ∃ s', s.scanUnicodeEscape true =
        .ok (if (leadingHexDigits 4 text).length < 4 then none else some (hexNumber (leadingHexDigits 4 text)), s') ∧
      Reaches (s.move (s.pos + 2)) s' (text.drop (leadingHexDigits 4 text).length) ((leadingHexDigits 4 text).length < 4) := by
  have brace : ¬(s.move (s.pos + 2)).char = '\x7b' := fun same => open_ ((place.char_eq_iff (by decide) (by decide)).mp same)
  have here := (Reaches.refl place).flag (show TokenFlag.unicodeEscape ≠ .unterminated by simp)
  obtain ⟨s₁, scanned, taken⟩ := here.place.scanHexDigits 4 false
  have digits : takenDigits false 4 text = leadingHexDigits 4 text := rfl
  rw [digits] at scanned taken
  have reached := here.trans taken
  unfold Scanner.scanUnicodeEscape
  dsimp only
  rw [if_neg brace, scanned, monad_bind, bind_ok]
  by_cases short : (leadingHexDigits 4 text).length < 4
  · rw [if_pos short, if_pos rfl, if_pos short]
    exact ⟨_, rfl, ((reached.flag (by simp)).errorAt _ _ _ _).congr (iff_of_true trivial short)⟩
  have four : (leadingHexDigits 4 text).length = 4 := Nat.le_antisymm length_leadingHexDigits (Nat.not_lt.mp short)
  have some_ : leadingHexDigits 4 text ≠ [] := fun none => by
    rw [none] at four
    cases four
  have small : hexNumber (leadingHexDigits 4 text) < 2 ^ 32 := by
    have bound := hexNumber_lt (leadingHexDigits 4 text)
    rw [four] at bound
    omega
  rw [if_neg short, if_neg fun same => some_ (map_eq_nil_iff.mp same), u32FromStrRadix_toLower some_ mem_leadingHexDigits,
    if_pos small, if_neg short]
  dsimp only
  rw [if_neg brace]
  exact ⟨_, rfl, reached.congr (by simp [short])⟩
end

section
variable {text after next : Text} {s : Scanner} {code start : Nat} {c : Char}

theorem report : EscapeSequenceScanningFlags.ofString.reportInvalidEscapeErrors = true := rfl

/-- An escape is scanned as it is read, with its value where the grammar has it. -/
def ScansEscape (s : Scanner) (outcome : Outcome (Text × Scanner)) (read : Reading × Text) : Prop :=
  ∃ escaped s', outcome = .ok (escaped, s') ∧ Reaches s s' read.2 (¬read.1.Quiet) ∧
    (read.1.Quiet → read.1.Grammatical → escaped = read.1.value)

theorem value_ofCodePoint (small : code ≤ 0x10FFFF) : (ofCodePoint code).value = [(charFromU32 code).getD '\uFFFD'] := by
  unfold ofCodePoint charFromU32 Nat.isValidChar
  by_cases surrogate : (Utf16.isHighSurrogate code || Utf16.isLowSurrogate code) = true
  · have range := surrogate
    rw [or_eq_true, Utf16.isHighSurrogate_iff, Utf16.isLowSurrogate_iff] at range
    rw [if_pos surrogate, if_neg (by omega)]
    rfl
  · have range := surrogate
    rw [or_eq_true, Utf16.isHighSurrogate_iff, Utf16.isLowSurrogate_iff] at range
    rw [if_neg surrogate, if_pos (by omega)]
    rfl

theorem nextUnicodeEscape_isSome (place : s.At after) :
    (s.char = '\\' ∧ s.charAt 1 = 'u' ∧ s.charAt 2 ≠ '\x7b') ↔ (nextUnicodeEscape after).isSome := by
  unfold Scanner.char
  rw [place.charAt, place.charAt, place.charAt, byteChar_eq_iff (by decide) (by decide)]
  cases after with
  | nil => exact iff_of_false (fun parts => by cases parts.1) (by decide)
  | cons c after =>
    by_cases backslash : c = '\\'
    · subst backslash
      rw [byteChar_succ (by decide), byteChar_succ (by decide), byteChar_eq_iff (by decide) (by decide)]
      cases after with
      | nil => exact iff_of_false (fun parts => by cases parts.2.1) (by decide)
      | cons d after =>
        by_cases unicode : d = 'u'
        · subst unicode
          rw [byteChar_succ (by decide), ne_eq, byteChar_eq_iff (by decide) (by decide), nextUnicodeEscape]
          by_cases braced : after.head? = some '\x7b'
          · rw [if_pos braced]
            exact iff_of_false (fun parts => parts.2.2 braced) Bool.false_ne_true
          · rw [if_neg braced]
            exact iff_of_true ⟨rfl, rfl, braced⟩ rfl
        · refine iff_of_false (fun parts => unicode (Option.some.inj parts.2.1)) fun found => ?_
          obtain ⟨next, found⟩ := isSome_iff_exists.mp found
          have shape := (nextUnicodeEscape_some found).1
          exact unicode (List.cons.inj (List.cons.inj shape).2).1
    · refine iff_of_false (fun parts => backslash (Option.some.inj parts.1)) fun found => ?_
      obtain ⟨next, found⟩ := isSome_iff_exists.mp found
      exact backslash (List.cons.inj (nextUnicodeEscape_some found).1).1

theorem codePointIsHighSurrogate_eq (code : Nat) : codePointIsHighSurrogate code = Utf16.isHighSurrogate code := decide_and _ _

theorem codePointIsLowSurrogate_eq (code : Nat) : codePointIsLowSurrogate code = Utf16.isLowSurrogate code := decide_and _ _

theorem charFromU32_surrogate (high : Utf16.isHighSurrogate code = true) : charFromU32 code = none := by
  rw [Utf16.isHighSurrogate_iff] at high
  unfold charFromU32 Nat.isValidChar
  rw [if_neg]
  omega

theorem charFromU32_pair {low : Nat} (high : Utf16.isHighSurrogate code = true) (isLow : Utf16.isLowSurrogate low = true) :
    charFromU32 (surrogatePairToCodepoint code low) = some (Char.ofNat (Utf16.pair code low)) := by
  have same : surrogatePairToCodepoint code low = Utf16.pair code low := rfl
  rw [Utf16.isHighSurrogate_iff] at high
  rw [Utf16.isLowSurrogate_iff] at isLow
  unfold charFromU32 Nat.isValidChar
  rw [same, if_pos]
  unfold Utf16.pair
  omega

theorem charOrText_eq (known : charFromU32 code = some c) : s.charOrText start code = .ok ([c], s) := by
  unfold Scanner.charOrText
  rw [known]

theorem scanSurrogate_alone (place : s.At after) (alone : (if Utf16.isHighSurrogate code then nextUnicodeEscape after else none) = none) :
    s.scanSurrogate .ofString start code = .ok ([(charFromU32 code).getD '\uFFFD'], s) := by
  unfold Scanner.scanSurrogate
  rw [codePointIsHighSurrogate_eq, if_neg, if_neg]
  · rintro ⟨-, regular⟩
    cases regular
  rintro ⟨high, -, escaped⟩
  have found := (nextUnicodeEscape_isSome place).mp escaped
  rw [if_pos high] at alone
  rw [alone] at found
  cases found

theorem scanSurrogate_next (place : s.At after) (high : Utf16.isHighSurrogate code = true) (found : nextUnicodeEscape after = some next) :
    ScansEscape s (s.scanSurrogate .ofString start code) (
      if (leadingHexDigits 4 next).length < 4 then (.refused, after)
      else if Utf16.isLowSurrogate (hexNumber (leadingHexDigits 4 next)) then
        (.exact [Char.ofNat (Utf16.pair code (hexNumber (leadingHexDigits 4 next)))], next.drop 4)
      else (.surrogate code, after)) := by
  have isSome : (nextUnicodeEscape after).isSome = true := by rw [found]; rfl
  obtain ⟨shape, open_⟩ := nextUnicodeEscape_some found
  have inside : (s.move (s.pos + 2)).At next := by
    rw [shape] at place
    have two : bytes ['\\', 'u'] = 2 := by decide
    exact @Scanner.At.moveBy ['\\', 'u'] next s place _ (congrArg (s.pos + ·) two.symm)
  obtain ⟨s', scanned, reached⟩ := scanUnicodeEscape_four inside open_
  unfold Scanner.scanSurrogate
  dsimp only
  rw [codePointIsHighSurrogate_eq, if_pos ⟨high, .inl Bool.false_ne_true, (nextUnicodeEscape_isSome place).mpr isSome⟩]
  have reached := ((Reaches.refl place).move inside).trans reached
  have regular : ¬EscapeSequenceScanningFlags.ofString.regularExpression = true := Bool.false_ne_true
  have back (reported : Prop) (reached : Reaches s s' (next.drop (leadingHexDigits 4 next).length) reported) :
      Reaches s (s'.move s.pos) after reported := by
    refine reached.move ?_
    unfold Scanner.At Scanner.move
    rw [reached.same]
    exact place
  rw [report, scanned, monad_bind, bind_ok]
  by_cases short : (leadingHexDigits 4 next).length < 4
  · rw [if_pos short, if_pos short, filter_none]
    refine ⟨_, _, rfl, ?_, fun quiet => absurd quiet not_quiet_refused⟩
    exact (back _ reached).congr (iff_of_true (.inr short) not_quiet_refused)
  rw [if_neg short, if_neg short]
  have four : (leadingHexDigits 4 next).length = 4 := Nat.le_antisymm length_leadingHexDigits (Nat.not_lt.mp short)
  by_cases low : Utf16.isLowSurrogate (hexNumber (leadingHexDigits 4 next)) = true
  · rw [filter_some, codePointIsLowSurrogate_eq, if_pos low, if_pos low]
    dsimp only
    rw [charOrText_eq (charFromU32_pair high low)]
    rw [four] at reached
    exact ⟨_, _, rfl, reached.congr (by simp [Reading.Quiet]), fun _ _ => rfl⟩
  · rw [filter_some, codePointIsLowSurrogate_eq, if_neg low, if_neg low]
    rw [if_neg regular, charFromU32_surrogate high]
    exact ⟨_, _, rfl, (back _ reached).congr (by simp [Reading.Quiet, short]), fun _ _ => rfl⟩

theorem readUnicode_braced (text : Text) : readUnicode ('\x7b' :: text) = readBraced text := if_pos rfl

theorem scanEscapedUnicode_scans (place : s.At ('\\' :: 'u' :: text)) :
    ScansEscape s ((s.move (s.pos + 2)).scanEscapedUnicode .ofString s.pos) (readUnicode text) := by
  have two : bytes ['\\', 'u'] = 2 := by decide
  have inside : (s.move (s.pos + 2)).At text := @Scanner.At.moveBy ['\\', 'u'] text s place _ (congrArg (s.pos + ·) two.symm)
  have arrived := (Reaches.refl place).move inside
  have back : (s.move (s.pos + 2)).move ((s.move (s.pos + 2)).pos - 2) = s := by
    rfl
  have allowed (p : Prop) : ¬(p ∧ ¬EscapeSequenceScanningFlags.ofString.allowExtendedUnicodeEscape = true) := fun both => both.2 rfl
  have extended := inside.char_eq_iff (show '\x7b' ≠ '\x00' by decide) (show '\x7b'.toNat < 0x80 by decide)
  unfold Scanner.scanEscapedUnicode
  dsimp only
  rw [back, report]
  by_cases braced : text.head? = some '\x7b'
  · obtain ⟨text, rfl⟩ := List.head?_eq_some_iff.mp braced
    obtain ⟨code, s', scanned, reached, known⟩ := scanUnicodeEscape_braced inside
    have reached := (arrived.trans reached).congr (or_iff_right id)
    rw [scanned, monad_bind, bind_ok, readUnicode_braced]
    rw [if_neg (allowed _)]
    cases code with
    | none =>
      have suffix : (readBraced text).2 <:+ '\\' :: 'u' :: '\x7b' :: text :=
        (readBraced_follows text).suffix.trans (suffix_append ['\\', 'u', '\x7b'] text)
      obtain ⟨front, cut⟩ := place.cut_to reached.place reached.same suffix
      rw [cut]
      refine ⟨_, _, rfl, reached, fun _ grammatical => ?_⟩
      obtain ⟨n, listed, -⟩ := known grammatical
      cases listed
    | some n =>
      dsimp only
      rw [if_pos (extended.mpr rfl)]
      refine ⟨_, _, rfl, reached, fun _ grammatical => ?_⟩
      obtain ⟨n', listed, small, same⟩ := known grammatical
      cases listed
      rw [same, value_ofCodePoint small]
  have open_ : ¬(s.move (s.pos + 2)).char = '\x7b' := fun same => braced (extended.mp same)
  obtain ⟨s', scanned, reached⟩ := scanUnicodeEscape_four inside braced
  have reached := (arrived.trans reached).congr (or_iff_right id)
  have suffix : text.drop (leadingHexDigits 4 text).length <:+ '\\' :: 'u' :: text :=
    (drop_suffix _ _).trans (suffix_append ['\\', 'u'] text)
  rw [scanned, monad_bind, bind_ok, readUnicode, if_neg braced]
  rw [if_neg (allowed _)]
  by_cases short : (leadingHexDigits 4 text).length < 4
  · obtain ⟨front, cut⟩ := place.cut_to reached.place reached.same suffix
    rw [if_pos short, if_pos short]
    rw [cut]
    exact ⟨_, _, rfl, reached.congr (iff_of_true short not_quiet_refused), fun quiet => absurd quiet not_quiet_refused⟩
  rw [if_neg short, if_neg short]
  dsimp only
  rw [if_neg open_]
  have small := hexNumber_lt (leadingHexDigits 4 text)
  have four : (leadingHexDigits 4 text).length = 4 := Nat.le_antisymm length_leadingHexDigits (Nat.not_lt.mp short)
  rw [four] at small
  split
  · rename_i alone
    rw [scanSurrogate_alone reached.place alone]
    refine ⟨_, _, rfl, reached.congr (iff_of_false short (not_not_intro (quiet_ofCodePoint _))), fun _ _ => ?_⟩
    exact (value_ofCodePoint (by omega)).symm
  · rename_i next found
    obtain ⟨high, found⟩ := ite_none_right_eq_some.mp found
    obtain ⟨escaped, s'', scanned', reached', value⟩ := @scanSurrogate_next _ _ _ _ s.pos reached.place high found
    exact ⟨escaped, s'', scanned', (reached.trans reached').congr (or_iff_right short), value⟩

theorem leadingHexDigits_succ (k : Nat) (c : Char) (text : Text) :
    leadingHexDigits (k + 1) (c :: text) = if isHexDigit c then c :: leadingHexDigits k text else [] := takeWhile_cons

theorem hexPair_eq {k : Nat} (place : s.At text) : s.hexPair (s.pos + k) k =
    (decide (k ≤ (leadingHexDigits k text).length), s.move (s.pos + (leadingHexDigits k text).length)) := by
  induction k generalizing text s with
  | zero => rfl
  | succ k ih =>
    rw [Scanner.hexPair, if_pos (Nat.lt_add_of_pos_right (Nat.succ_pos k)), place.isHexDigit_char]
    cases text with
    | nil =>
      rfl
    | cons c text =>
      rw [leadingHexDigits_succ, List.head?_cons, any_some]
      cases hex : isHexDigit c with
      | false =>
        rfl
      | true =>
        have next := place.move (utf8Size_ascii (hexDigit_ascii hex))
        have stop : s.pos + (k + 1) = (s.move (s.pos + 1)).pos + k := Nat.add_right_comm s.pos k 1
        have length : s.pos + (leadingHexDigits k text).length.succ = s.pos + 1 + (leadingHexDigits k text).length :=
          Nat.add_right_comm s.pos _ 1
        rw [if_pos rfl, if_pos rfl, stop, ih next, length_cons]
        refine Prod.ext (decide_eq_decide.mpr Nat.succ_le_succ_iff.symm) ?_
        exact congrArg s.move length.symm

theorem scanEscapedHex_scans (place : s.At ('\\' :: 'x' :: text)) :
    ScansEscape s ((s.move (s.pos + 2)).scanEscapedHex .ofString s.pos) (readHex text) := by
  have two : bytes ['\\', 'x'] = 2 := by decide
  have inside : (s.move (s.pos + 2)).At text := @Scanner.At.moveBy ['\\', 'x'] text s place _ (congrArg (s.pos + ·) two.symm)
  have hex := @mem_leadingHexDigits 2 text
  have size := bytes_hexDigits hex
  have shape := @leadingHexDigits_drop 2 text
  have after : ((s.move (s.pos + 2)).move (s.pos + 2 + (leadingHexDigits 2 text).length)).At
      (text.drop (leadingHexDigits 2 text).length) := by
    rw [shape] at inside
    exact inside.moveBy (congrArg (s.pos + 2 + ·) size.symm)
  have reached := ((Reaches.refl place).move inside).move after
  have loop := @hexPair_eq text (s.move (s.pos + 2)) 2 inside
  have stop : (s.move (s.pos + 2)).pos + 2 = s.pos + 4 := Nat.add_assoc _ _ _
  have fuel : s.pos + 4 - (s.move (s.pos + 2)).pos = 2 := Nat.add_sub_add_left s.pos 4 2
  rw [stop] at loop
  unfold Scanner.scanEscapedHex readHex
  rw [fuel, loop]
  dsimp only
  by_cases short : (leadingHexDigits 2 text).length < 2
  · rw [if_neg (by simp [short]), if_pos short, if_pos report]
    have reported := (reached.flag (show TokenFlag.containsInvalidEscape ≠ .unterminated by simp)).errorAt .hexadecimalDigitExpected
      (s.pos + 2 + (leadingHexDigits 2 text).length) 0 []
    have suffix : text.drop (leadingHexDigits 2 text).length <:+ '\\' :: 'x' :: text :=
      (drop_suffix _ _).trans (suffix_append ['\\', 'x'] text)
    obtain ⟨front, cut⟩ := place.cut_to reported.place reported.same suffix
    refine ⟨front, _, ?_, reported.congr (iff_of_true trivial not_quiet_refused), fun quiet => absurd quiet not_quiet_refused⟩
    exact congrArg (Outcome.bind · _) cut
  have long : (leadingHexDigits 2 text).length = 2 := Nat.le_antisymm length_leadingHexDigits (Nat.not_lt.mp short)
  have some_ : leadingHexDigits 2 text ≠ [] := fun none => by
    rw [none] at long
    cases long
  have small := hexNumber_lt (leadingHexDigits 2 text)
  rw [long] at small
  have cut : ((s.move (s.pos + 2)).move (s.pos + 2 + (leadingHexDigits 2 text).length)).cut (s.pos + 2)
      (s.pos + 2 + (leadingHexDigits 2 text).length) = .ok (leadingHexDigits 2 text) := by
    rw [shape] at inside
    exact inside.cut (congrArg (s.pos + 2 + ·) size.symm)
  rw [if_pos (by simp [Nat.not_lt.mp short]), if_neg short]
  refine ⟨_, _, congrArg (Outcome.bind · _) cut, ?_, fun _ _ => ?_⟩
  · exact (reached.flag (by simp)).congr (iff_of_false id (not_not_intro ⟨by simp, by simp⟩))
  · rw [u32FromStrRadix_hex some_ hex, if_pos (by omega), getD_some, charFromU32, if_pos (.inl (by omega))]
    rfl

theorem isOctalDigit_ascii (octal : isOctalDigit c = true) : c.toNat < 0x80 := by
  have high := ((and_eq_true _ _).mp octal).2
  exact Nat.lt_of_le_of_lt (Char.le_def.mp (of_decide_eq_true high)) (by decide)

theorem Reaches.octalDigit {s' : Scanner} {reported : Prop} (reached : Reaches s s' text reported) :
    Reaches s (if isOctalDigit s'.char then s'.move (s'.pos + 1) else s') (dropOctalDigits 1 text) reported := by
  have digit : isOctalDigit s'.char = text.head?.any isOctalDigit := by
    unfold Scanner.char
    rw [reached.place.charAt]
    exact any_byteChar rfl (fun _ octal => isOctalDigit_ascii octal) text
  rw [digit]
  cases text with
  | nil => exact reached
  | cons c text =>
    rw [List.head?_cons, any_some, dropOctalDigits]
    cases octal : isOctalDigit c with
    | false => exact reached
    | true =>
      have next := reached.move (reached.place.move (utf8Size_ascii (isOctalDigit_ascii octal)))
      cases text with
      | nil => exact next
      | cons d text => exact next

theorem dropOctalDigits_two (text : Text) : dropOctalDigits 2 text = dropOctalDigits 1 (dropOctalDigits 1 text) := by
  cases text with
  | nil => rfl
  | cons c text =>
    rw [dropOctalDigits, dropOctalDigits]
    cases octal : isOctalDigit c with
    | false =>
      rw [if_neg Bool.false_ne_true, if_neg Bool.false_ne_true, dropOctalDigits, octal]
      rfl
    | true =>
      cases text with
      | nil => rfl
      | cons d text => rfl

theorem scanOctalEscapeTail_scans (narrow : c.utf8Size = 1) (place : s.At ('\\' :: c :: text)) :
    ScansEscape s ((s.move (s.pos + 2)).scanOctalEscapeTail .ofString s.pos c)
      (.refused, dropOctalDigits (if '0' ≤ c ∧ c ≤ '3' then 2 else 1) text) := by
  have first : (s.move (s.pos + 1)).At (c :: text) := place.move rfl
  have arrived := (Reaches.refl place).move (first.move narrow)
  obtain ⟨s₁, passed, reached⟩ : ∃ s₁, (if ('0' ≤ c ∧ c ≤ '3') ∧ isOctalDigit (s.move (s.pos + 2)).char = true then
      (s.move (s.pos + 2)).move ((s.move (s.pos + 2)).pos + 1) else s.move (s.pos + 2)) = s₁ ∧
        Reaches s s₁ (if '0' ≤ c ∧ c ≤ '3' then dropOctalDigits 1 text else text) False := by
    refine ⟨_, rfl, ?_⟩
    by_cases low : '0' ≤ c ∧ c ≤ '3'
    · rw [if_congr (and_iff_right low) rfl rfl, if_pos low]
      exact arrived.octalDigit
    · rw [if_neg fun both => low both.1, if_neg low]
      exact arrived
  have count : dropOctalDigits 1 (if '0' ≤ c ∧ c ≤ '3' then dropOctalDigits 1 text else text) =
      dropOctalDigits (if '0' ≤ c ∧ c ≤ '3' then 2 else 1) text := by
    split
    · exact (dropOctalDigits_two text).symm
    · rfl
  have reached := reached.octalDigit.flag (show TokenFlag.containsInvalidEscape ≠ .unterminated by simp)
  rw [count] at reached
  have suffix : dropOctalDigits (if '0' ≤ c ∧ c ≤ '3' then 2 else 1) text <:+ c :: text :=
    (dropOctalDigits_suffix _ _).trans (suffix_cons c text)
  obtain ⟨front, cut⟩ := first.cut_to reached.place reached.same suffix
  unfold Scanner.scanOctalEscapeTail
  rw [passed, if_pos report]
  refine ⟨_, _, congrArg (Outcome.bind · _) cut, ?_, fun quiet => absurd quiet not_quiet_refused⟩
  exact (reached.errorAt _ _ _ _).congr (iff_of_true trivial not_quiet_refused)

theorem scanDecimalEscape_scans (narrow : c.utf8Size = 1) (place : s.At ('\\' :: c :: text)) :
    ScansEscape s ((s.move (s.pos + 2)).scanDecimalEscape .ofString s.pos c) (.refused, text) := by
  have first : (s.move (s.pos + 1)).At (c :: text) := place.move rfl
  have reached := ((Reaches.refl place).move (first.move narrow)).flag (show TokenFlag.containsInvalidEscape ≠ .unterminated by simp)
  have regular : ¬(EscapeSequenceScanningFlags.ofString.regularExpression = true ∧
    ¬EscapeSequenceScanningFlags.ofString.atomEscape = true) := fun both => by cases both.1
  obtain ⟨front, cut⟩ := place.cut_to reached.place reached.same (suffix_append ['\\', c] text)
  unfold Scanner.scanDecimalEscape
  rw [if_pos report, if_neg regular]
  refine ⟨_, _, congrArg (Outcome.bind · _) cut, ?_, fun quiet => absurd quiet not_quiet_refused⟩
  exact (reached.errorAt _ _ _ _).congr (iff_of_true trivial not_quiet_refused)
end

variable {c : Char} {text : Text} {s : Scanner} {isIdentifierPart : Char → Bool}

theorem wide_utf8Size (wide : ¬c.toNat < 0x80) : 1 < c.utf8Size := by
  have size := c.utf8Size_pos
  have other : c.utf8Size ≠ 1 := by
    intro one
    have low : c.toNat ≤ 0x7F := UInt32.le_iff_toNat_le.mp (Char.utf8Size_eq_one_iff.mp one)
    omega
  omega

theorem beyond_ascii (wide : 0x80 ≤ c.toNat) : (∀ x : Char, x.toNat < 0x80 → c ≠ x) ∧ ¬('1' ≤ c ∧ c ≤ '7') ∧
    Scanner.singleEscapes.lookup c = none := by
  have other (x : Char) (ascii : x.toNat < 0x80) : c ≠ x := by
    rintro rfl
    omega
  refine ⟨other, fun octal => ?_, lookup_eq_none_iff.mpr fun entry listed => bne_iff_ne.mpr (other _ ?_)⟩
  · have below : c.toNat ≤ 0x37 := octal.2
    omega
  · have marks : ∀ entry ∈ Scanner.singleEscapes, entry.1.toNat < 0x80 := by decide
    exact marks entry listed

theorem not_refused (p : Prop) : ¬(EscapeSequenceScanningFlags.ofString.anyUnicodeMode = true ∨
    EscapeSequenceScanningFlags.ofString.regularExpression = true ∧ ¬EscapeSequenceScanningFlags.ofString.annexB = true ∧ p) := by
  rintro (unicode | ⟨regular, -⟩)
  · cases unicode
  · cases regular

theorem scanEscapeSequence_wide (wide : 0x80 ≤ (s.move (s.pos + 1)).char.toNat) :
    s.scanEscapeSequence .ofString isIdentifierPart =
      if (s.move (s.pos + 1)).char = '\u00e2' ∧ (s.move (s.pos + 2)).char = '\u0080' then
        if (s.move (s.pos + 2)).charAt 1 = '\u00a8' ∨ (s.move (s.pos + 2)).charAt 1 = '\u00a9' then
          .ok (['\u00e2', '\uFFFD', '\uFFFD'], s.move (s.pos + 2 + 2))
        else .ok ([(s.move (s.pos + 1)).char], s.move (s.pos + 2))
      else if (s.move (s.pos + 1)).char = '\u00c2' ∧ (s.move (s.pos + 2)).char = '\u0085' then
        .ok (['\u00c2', '\uFFFD'], s.move (s.pos + 2 + 1))
      else .ok ([(s.move (s.pos + 1)).char], s.move (s.pos + 2)) := by
  obtain ⟨other, octal, unknown⟩ := beyond_ascii wide
  unfold Scanner.scanEscapeSequence
  rw [if_neg (other _ (by decide)), if_neg (other _ (by decide)), if_neg octal,
    if_neg (not_or.mpr ⟨other _ (by decide), other _ (by decide)⟩), unknown]
  rw [if_neg (other _ (by decide)), if_neg (other _ (by decide)), if_neg (other _ (by decide)), if_neg (other _ (by decide)),
    if_neg (not_refused _)]
  rfl

theorem readEscape_wide (wide : ¬c.toNat < 0x80) : readEscape (c :: text) =
    if c = '\u2028' ∨ c = '\u2029' then some (.separator, text) else if c = '\u0085' then some (.nextLine, text) else none := by
  obtain ⟨other, octal, unknown⟩ := beyond_ascii (Nat.not_lt.mp wide)
  rw [readEscape, if_neg (other _ (by decide)), if_neg (other _ (by decide)), if_neg octal,
    if_neg (not_or.mpr ⟨other _ (by decide), other _ (by decide)⟩), unknown]
  rw [readUnlisted, if_neg (other _ (by decide)), if_neg (other _ (by decide)), if_neg (other _ (by decide)), if_neg (other _ (by decide)),
    if_neg wide]

theorem byteChar_offset (place : s.At (c :: text)) (k : Nat) : (s.move (s.pos + 1)).charAt k = byteChar (c :: text) (k + 1) := by
  rw [← place.charAt]
  unfold Scanner.charAt Scanner.move
  rw [Nat.add_assoc, Nat.add_comm 1 k]

theorem scanEscapeSequence_separator (place : s.At ('\\' :: c :: text)) (separator : c = '\u2028' ∨ c = '\u2029') :
    ScansEscape s (s.scanEscapeSequence .ofString isIdentifierPart) (.separator, text) := by
  have first : (s.move (s.pos + 1)).At (c :: text) := place.move rfl
  have here : (s.move (s.pos + 1)).char = byteChar (c :: text) 0 := first.charAt 0
  have second : (s.move (s.pos + 2)).char = byteChar (c :: text) 1 := byteChar_offset first 0
  have third : (s.move (s.pos + 2)).charAt 1 = byteChar (c :: text) 2 := byteChar_offset first 1
  have size : c.utf8Size = 3 := by
    rcases separator with rfl | rfl
    all_goals decide
  have bytes_ : byteChar (c :: text) 0 = '\u00e2' ∧ byteChar (c :: text) 1 = '\u0080' ∧
      (byteChar (c :: text) 2 = '\u00a8' ∨ byteChar (c :: text) 2 = '\u00a9') := by
    rcases separator with rfl | rfl
    · exact ⟨rfl, rfl, .inl rfl⟩
    · exact ⟨rfl, rfl, .inr rfl⟩
  rw [← here, ← second, ← third] at bytes_
  rw [scanEscapeSequence_wide, if_pos ⟨bytes_.1, bytes_.2.1⟩, if_pos bytes_.2.2]
  · refine ⟨_, _, rfl, ?_, fun _ _ => rfl⟩
    exact ((Reaches.refl place).move (first.move size)).congr (iff_of_false id (not_not_intro ⟨by simp, by simp⟩))
  · rw [bytes_.1]
    decide

theorem scanEscapeSequence_nextLine (place : s.At ('\\' :: '\u0085' :: text)) :
    ScansEscape s (s.scanEscapeSequence .ofString isIdentifierPart) (.nextLine, text) := by
  have first : (s.move (s.pos + 1)).At ('\u0085' :: text) := place.move rfl
  have here : (s.move (s.pos + 1)).char = '\u00c2' := first.charAt 0
  have second : (s.move (s.pos + 2)).char = '\u0085' := byteChar_offset first 0
  have apart : ¬((s.move (s.pos + 1)).char = '\u00e2' ∧ (s.move (s.pos + 2)).char = '\u0080') := by
    rintro ⟨other, -⟩
    rw [here] at other
    exact absurd other (by decide)
  have size : '\u0085'.utf8Size = 2 := by decide
  rw [scanEscapeSequence_wide, if_neg apart, if_pos ⟨here, second⟩]
  · refine ⟨_, _, rfl, ?_, fun _ _ => rfl⟩
    exact ((Reaches.refl place).move (first.move size)).congr (iff_of_false id (not_not_intro ⟨by simp, by simp⟩))
  · rw [here]
    decide

theorem scanEscapeSequence_between (place : s.At ('\\' :: c :: text)) (wide : ¬c.toNat < 0x80)
    (separator : ¬(c = '\u2028' ∨ c = '\u2029')) (nextLine : c ≠ '\u0085') :
    ∃ escaped, s.scanEscapeSequence .ofString isIdentifierPart = .ok (escaped, s.move (s.pos + 2)) := by
  have first : (s.move (s.pos + 1)).At (c :: text) := place.move rfl
  have here : (s.move (s.pos + 1)).char = byteChar (c :: text) 0 := first.charAt 0
  have second : (s.move (s.pos + 2)).char = byteChar (c :: text) 1 := byteChar_offset first 0
  have third : (s.move (s.pos + 2)).charAt 1 = byteChar (c :: text) 2 := byteChar_offset first 1
  have number (x : Char) (other : c ≠ x) : c.toNat ≠ x.toNat := fun same => other (Char.toNat_inj.mp same)
  have byte (b : UInt8) : (Char.ofNat b.toNat).toNat = b.toNat := by
    have valid : b.toNat.isValidChar := .inl (Nat.lt_trans b.toNat_lt (by decide))
    rw [Char.ofNat, dif_pos valid]
    rfl
  obtain ⟨b₁, b₂, more, shape, ⟨large, -⟩, isNextLine, isSeparator⟩ := wide_bytes wide
  have first_ : byteChar (c :: text) 0 = Char.ofNat b₁.toNat := by
    unfold byteChar
    rw [encoded_cons, shape]
    rfl
  have second_ : byteChar (c :: text) 1 = Char.ofNat b₂.toNat := by
    unfold byteChar
    rw [encoded_cons, shape]
    rfl
  have known (k : Nat) (b : UInt8) (x : Char) (same : byteChar (c :: text) k = Char.ofNat b.toNat) (is : byteChar (c :: text) k = x) :
      b.toNat = x.toNat := by rw [← byte b, ← same, is]
  rw [scanEscapeSequence_wide (by rw [here, first_, byte]; exact large), here, second, third]
  split
  · rename_i marks
    obtain ⟨last, rfl, marked⟩ := isSeparator (known 0 b₁ _ first_ marks.1)
    have third_ : byteChar (c :: text) 2 = Char.ofNat last.toNat := by
      unfold byteChar
      rw [encoded_cons, shape]
      rfl
    have other : ¬(byteChar (c :: text) 2 = '\u00a8' ∨ byteChar (c :: text) 2 = '\u00a9') := by
      intro marks'
      have is := marked (known 1 b₂ _ second_ marks.2) (marks'.imp (known 2 last _ third_) (known 2 last _ third_))
      exact is.elim (number '\u2028' fun same => separator (.inl same)) (number '\u2029' fun same => separator (.inr same))
    rw [if_neg other]
    exact ⟨_, rfl⟩
  · have other : ¬(byteChar (c :: text) 0 = '\u00c2' ∧ byteChar (c :: text) 1 = '\u0085') := fun marks =>
      number '\u0085' nextLine (isNextLine (known 0 b₁ _ first_ marks.1) (known 1 b₂ _ second_ marks.2))
    rw [if_neg other]
    exact ⟨_, rfl⟩

theorem not_between (place : s.At ('\\' :: c :: text)) (wide : ¬c.toNat < 0x80) :
    dropBytes s.text (s.pos + 2) = none ∧ (s.move (s.pos + 2)).charAndSize = ('\x00', 0) := by
  obtain ⟨before, whole, pos⟩ := place.split
  have size := wide_utf8Size wide
  have one : bytes ['\\'] = 1 := by decide
  have shape : before ++ '\\' :: c :: text = (before ++ ['\\']) ++ c :: text := by simp
  have offset : s.pos + 2 = bytes (before ++ ['\\']) + 1 := by rw [bytes_append, one, pos]
  have none : dropBytes s.text (s.pos + 2) = none := by
    rw [whole, shape, offset, dropBytes_add, dropBytes, if_neg (by omega)]
  obtain ⟨first, second, third, shape, ⟨-, large⟩, -⟩ := wide_bytes wide
  have byte : (encoded s.text)[s.pos + 2]? = some second := by
    rw [place.byte, encoded_cons, encoded_cons, shape]
    rfl
  refine ⟨none, ?_⟩
  unfold Scanner.charAndSize Scanner.move
  rw [byte, none]
  exact if_neg (Nat.not_lt.mpr large)

/-- An escape is scanned as it is read; where nothing is read, the scanner comes to stand between the bytes of a character. -/
def ScansAs (s : Scanner) (outcome : Outcome (Text × Scanner)) : Option (Reading × Text) → Prop
  | some read => ScansEscape s outcome read
  | none => ∃ escaped s', outcome = .ok (escaped, s') ∧ dropBytes s'.text s'.pos = none ∧ s'.charAndSize = ('\x00', 0)

theorem ScansEscape.exact {s' : Scanner} {more : Text} (value : Text) (reached : Reaches s s' more False) :
    ScansEscape s (.ok (value, s')) (.exact value, more) :=
  ⟨_, _, rfl, reached.congr (iff_of_false id (not_not_intro ⟨by simp, by simp⟩)), fun _ _ => rfl⟩

theorem isDigit_char (place : s.At text) : s.char.isDigit = text.head?.any Char.isDigit := by
  unfold Scanner.char
  rw [place.charAt]
  refine any_byteChar rfl (fun c digit => ?_) text
  exact Nat.lt_of_le_of_lt (Char.le_def.mp (isDigit_iff.mp digit).2) (by decide)

theorem scanEscapeSequence_null (place : s.At ('\\' :: text)) (null : byteChar text 0 = '\x00') :
    ∃ s', s.scanEscapeSequence .ofString isIdentifierPart = .ok ([], s') ∧ Reaches s s' text True := by
  have first : (s.move (s.pos + 1)).At text := place.move rfl
  have here : (s.move (s.pos + 1)).char = '\x00' := (first.charAt 0).trans null
  unfold Scanner.scanEscapeSequence
  rw [if_pos here]
  exact ⟨_, rfl, ((Reaches.refl place).move first).errorAt _ _ _ _⟩

theorem scanEscapeSequence_ascii (place : s.At ('\\' :: c :: text)) (ascii : c.toNat < 0x80) :
    ScansAs s (s.scanEscapeSequence .ofString isIdentifierPart) (readEscape (c :: text)) := by
  have narrow := utf8Size_ascii ascii
  have first : (s.move (s.pos + 1)).At (c :: text) := place.move rfl
  have here : (s.move (s.pos + 1)).char = c := (first.charAt 0).trans (byteChar_zero ascii text)
  have twice : (s.move (s.pos + 1)).move ((s.move (s.pos + 1)).pos + 1) = s.move (s.pos + 2) := rfl
  have arrived : Reaches s (s.move (s.pos + 2)) text False := (Reaches.refl place).move (first.move narrow)
  have other (x : Char) (wide : ¬x.toNat < 0x80) : c ≠ x := by
    rintro rfl
    exact wide ascii
  rw [readEscape]
  by_cases null : c = '\x00'
  · obtain ⟨s', scanned, reached⟩ := @scanEscapeSequence_null _ s isIdentifierPart place ((byteChar_zero ascii text).trans null)
    rw [if_pos null]
    exact ⟨_, _, scanned, reached.congr (iff_of_true trivial fun both => both.1 rfl), fun quiet => absurd rfl quiet.1⟩
  unfold Scanner.scanEscapeSequence
  dsimp only
  rw [here, twice, if_neg null, if_neg null]
  by_cases zero : c = '0'
  · subst zero
    rw [if_pos rfl, if_pos rfl, isDigit_char arrived.place]
    cases text.head?.any Char.isDigit with
    | true => exact scanOctalEscapeTail_scans narrow place
    | false => exact ScansEscape.exact _ arrived
  rw [if_neg zero, if_neg zero]
  by_cases octal : '1' ≤ c ∧ c ≤ '7'
  · have low : ('0' ≤ c ∧ c ≤ '3') ↔ c ≤ '3' := and_iff_right (le_trans (by decide) octal.1)
    have scans := scanOctalEscapeTail_scans narrow place
    rw [if_congr low rfl rfl] at scans
    rw [if_pos octal, if_pos octal]
    exact scans
  rw [if_neg octal, if_neg octal]
  by_cases decimal : c = '8' ∨ c = '9'
  · rw [if_pos decimal, if_pos decimal]
    exact scanDecimalEscape_scans narrow place
  rw [if_neg decimal, if_neg decimal]
  cases Scanner.singleEscapes.lookup c with
  | some escaped => exact ScansEscape.exact _ arrived
  | none =>
    rw [readUnlisted]
    by_cases unicode : c = 'u'
    · subst unicode
      exact scanEscapedUnicode_scans place
    rw [if_neg unicode, if_neg unicode]
    by_cases hex : c = 'x'
    · subst hex
      exact scanEscapedHex_scans place
    rw [if_neg hex, if_neg hex]
    by_cases carriage : c = '\r'
    · rw [if_pos carriage, if_pos carriage]
      refine ScansEscape.exact _ ?_
      have feeds := arrived.place.char_eq_iff (show '\n' ≠ '\x00' by decide) (show '\n'.toNat < 0x80 by decide)
      by_cases feed : text.head? = some '\n'
      · obtain ⟨text, rfl⟩ := List.head?_eq_some_iff.mp feed
        rw [if_pos feed, if_pos (feeds.mpr feed)]
        exact arrived.move (arrived.place.move rfl)
      · rw [if_neg feed, if_neg fun same => feed (feeds.mp same)]
        exact arrived
    rw [if_neg carriage, if_neg carriage]
    by_cases feed : c = '\n'
    · rw [if_pos feed, if_pos feed]
      exact ScansEscape.exact _ arrived
    rw [if_neg feed, if_neg feed, if_neg fun both => other '\u00e2' (by decide) both.1, if_neg fun both => other '\u00c2' (by decide) both.1,
      if_neg (not_refused _), if_neg (not_or.mpr ⟨other '\u2028' (by decide), other '\u2029' (by decide)⟩),
      if_neg (other '\u0085' (by decide)), if_pos ascii]
    exact ScansEscape.exact _ arrived

theorem scanEscapeSequence_scans (place : s.At ('\\' :: text)) :
    ScansAs s (s.scanEscapeSequence .ofString isIdentifierPart) (readEscape text) := by
  cases text with
  | nil =>
    obtain ⟨s', scanned, reached⟩ := @scanEscapeSequence_null _ s isIdentifierPart place (byteChar_nil 0)
    exact ⟨_, _, scanned, reached.congr (iff_of_true trivial not_quiet_refused), fun quiet => absurd quiet not_quiet_refused⟩
  | cons c text =>
    by_cases ascii : c.toNat < 0x80
    · exact scanEscapeSequence_ascii place ascii
    rw [readEscape_wide ascii]
    by_cases separator : c = '\u2028' ∨ c = '\u2029'
    · rw [if_pos separator]
      exact scanEscapeSequence_separator place separator
    rw [if_neg separator]
    by_cases nextLine : c = '\u0085'
    · subst nextLine
      exact scanEscapeSequence_nextLine place
    rw [if_neg nextLine]
    obtain ⟨escaped, scanned⟩ := @scanEscapeSequence_between c text s isIdentifierPart place ascii separator nextLine
    exact ⟨escaped, _, scanned, not_between place ascii⟩

end TypeScriptRs.Syntax
