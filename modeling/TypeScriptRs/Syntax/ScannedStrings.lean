import TypeScriptRs.Syntax.ScannedEscapes

/-! What the scanner does with string literals, and where it scans them exactly. -/
namespace TypeScriptRs.Syntax
open Utf8 Machine List

section
variable {c quote : Char} {text rest sofar : Text} {s s' : Scanner} {start valueStart fuel : Nat} {result : Option Text}
  {isIdentifierPart : Char → Bool} {readings : List Reading} {ending : Ending} {r : Reading} {outcome : Outcome Scanner}

theorem charAndSize_nil (place : s.At []) : s.charAndSize = ('\x00', 0) := by
  have byte : (encoded s.text)[s.pos]? = none := place.byte 0
  unfold Scanner.charAndSize
  rw [byte]

theorem charAndSize_cons (place : s.At (c :: text)) : s.charAndSize = (c, c.utf8Size) := by
  have byte : (encoded s.text)[s.pos]? = (encoded (c :: text))[0]? := place.byte 0
  unfold Scanner.charAndSize
  rw [byte, encoded_cons]
  by_cases ascii : c.toNat < 0x80
  · have small : (UInt8.ofNat c.toNat).toNat = c.toNat := UInt8.toNat_ofNat_of_lt' (Nat.lt_trans ascii (by decide))
    have below : UInt8.ofNat c.toNat < 0x80 := by
      rw [UInt8.lt_iff_toNat_lt, small]
      exact ascii
    rw [utf8EncodeChar_ascii ascii, cons_append, List.getElem?_cons_zero]
    dsimp only
    rw [if_pos below, small, Char.ofNat_toNat, utf8Size_ascii ascii]
  obtain ⟨first, second, third, shape, ⟨large, -⟩, -⟩ := wide_bytes ascii
  have above : ¬first < 0x80 := fun below => Nat.not_lt.mpr large (UInt8.lt_iff_toNat_lt.mp below)
  have whole : dropBytes s.text s.pos = some (c :: text) := place
  rw [shape, cons_append, List.getElem?_cons_zero]
  dsimp only
  rw [if_neg above, whole]
  rfl

structure Collects (s : Scanner) (result : Option Text) (valueStart start : Nat) (sofar text : Text) : Prop where
  parts : ∃ front pending, s.text = front ++ pending ++ text ∧ start = bytes front ∧ s.pos = bytes front + bytes pending ∧
    sofar = result.getD [] ++ pending
  unchanged : result = none → start = valueStart

section
variable (collects : Collects s result valueStart start sofar text)
include collects

theorem Collects.place : s.At text := by
  obtain ⟨front, pending, whole, -, pos, -⟩ := collects.parts
  unfold Scanner.At
  rw [whole, pos, ← bytes_append]
  exact dropBytes_append _ _

theorem Collects.cut : ∃ pending, s.cut start s.pos = .ok pending ∧ sofar = result.getD [] ++ pending := by
  obtain ⟨front, pending, whole, rfl, pos, same⟩ := collects.parts
  refine ⟨pending, ?_, same⟩
  unfold Scanner.cut
  rw [whole, pos, slice_append]

theorem Collects.value : ∃ result', s.collect result start = .ok result' ∧
    ∀ s' : Scanner, s'.text = s.text → (s'.setTokenValue result' valueStart s.pos).tokenValueText = some sofar := by
  obtain ⟨pending, cut, same⟩ := collects.cut
  cases result with
  | none =>
    refine ⟨none, rfl, fun s' text => ?_⟩
    have start_ := collects.unchanged rfl
    obtain ⟨front, pending', whole, first, pos, same'⟩ := collects.parts
    have all : sofar = pending' := same'
    change slice s'.text valueStart s.pos = some sofar
    rw [text, whole, ← start_, first, pos, slice_append, all]
  | some acc =>
    refine ⟨some (acc ++ pending), ?_, fun s' _ => congrArg some same.symm⟩
    unfold Scanner.collect
    dsimp only
    rw [cut]
    rfl

theorem Collects.owned : s.collect (some (result.getD [])) start = .ok (some sofar) := by
  obtain ⟨pending, cut, whole⟩ := collects.cut
  unfold Scanner.collect
  dsimp only
  rw [cut, whole]
  rfl
end

theorem Collects.character (collects : Collects s result valueStart start sofar (c :: text)) :
    Collects (s.move (s.pos + c.utf8Size)) result valueStart start (sofar ++ [c]) text := by
  obtain ⟨front, pending, whole, first, pos, same⟩ := collects.parts
  refine ⟨⟨front, pending ++ [c], ?_, first, ?_, ?_⟩, collects.unchanged⟩
  · change s.text = _
    rw [whole]
    simp
  · change s.pos + c.utf8Size = _
    rw [pos, bytes_append, bytes_cons, bytes_nil]
    omega
  · rw [same, append_assoc]

theorem Collects.escape {acc : Text} (place : s'.At text) : Collects s' (some acc) valueStart s'.pos acc text := by
  obtain ⟨before, whole, pos⟩ := place.split
  refine ⟨⟨before, [], ?_, pos.symm, pos.symm, (append_nil acc).symm⟩, fun none => by cases none⟩
  rw [whole, append_nil]

/-- The string was scanned as it is read: to the end that it has, with an error where one is read or the end is missing, and with the
value of what is read, where the grammar has it. -/
structure ScansString (s s' : Scanner) (sofar : Text) (readings : List Reading) (ending : Ending) : Prop where
  same : s'.text = s.text
  diagnostics : ∃ added, s'.diagnostics = s.diagnostics ++ added ∧ (added ≠ [] ↔ ending = .unterminated ∨ ∃ r ∈ readings, ¬r.Quiet)
  unterminated : .unterminated ∈ s'.tokenFlags ↔ .unterminated ∈ s.tokenFlags ∨ ending = .unterminated
  place : ∀ rest, ending = .closed rest → s'.At rest
  value : (∀ r ∈ readings, r.Quiet) → (∀ r ∈ readings, r.Grammatical) →
    s'.tokenValueText = some (sofar ++ readings.flatMap Reading.value)

theorem ScansString.ended (collects : Collects s result valueStart start sofar text) {s₁ : Scanner} (same : s₁.text = s.text)
    (diagnostics : ∃ added, s₁.diagnostics = s.diagnostics ++ added ∧ (added ≠ [] ↔ ending = .unterminated))
    (unterminated : .unterminated ∈ s₁.tokenFlags ↔ .unterminated ∈ s.tokenFlags ∨ ending = .unterminated)
    (place : ∀ rest, ending = .closed rest → s₁.At rest) :
    ∃ s', (do
        let result ← s.collect result start
        pure (s₁.setTokenValue result valueStart s.pos)) = Outcome.ok s' ∧ ScansString s s' sofar [] ending := by
  obtain ⟨result', collected, value⟩ := collects.value
  refine ⟨s₁.setTokenValue result' valueStart s.pos, by rw [collected]; rfl, same, ?_, unterminated, place, ?_⟩
  · obtain ⟨added, whole, some_⟩ := diagnostics
    exact ⟨added, whole, some_.trans (by simp)⟩
  · rw [flatMap_nil, append_nil]
    exact fun _ _ => value _ same

theorem ScansString.unended (collects : Collects s result valueStart start sofar text) :
    ∃ s', (do
        let result ← s.collect result start
        pure (s.unterminatedString.setTokenValue result valueStart s.pos)) = Outcome.ok s' ∧
      ScansString s s' sofar [] .unterminated := by
  refine ScansString.ended collects rfl ⟨_, rfl, by simp⟩ ?_ fun _ same => by cases same
  exact Finset.mem_insert.trans (or_comm.trans (or_congr_right (iff_of_true rfl rfl)))

theorem ScansString.cons {s₁ : Scanner} {sofar' : Text} (first : Reaches s s₁ text (¬r.Quiet))
    (value : r.Quiet → r.Grammatical → sofar' = sofar ++ r.value) (later : ScansString s₁ s' sofar' readings ending) :
    ScansString s s' sofar (r :: readings) ending := by
  obtain ⟨added, whole, some_⟩ := first.diagnostics
  obtain ⟨added', whole', some_'⟩ := later.diagnostics
  refine ⟨later.same.trans first.same, ⟨added ++ added', ?_, ?_⟩, ?_, later.place, fun quiet grammatical => ?_⟩
  · rw [whole', whole, append_assoc]
  · rw [ne_eq, append_eq_nil_iff, not_and_or, ← ne_eq, ← ne_eq, some_, some_', exists_mem_cons_iff]
    exact or_left_comm
  · rw [later.unterminated, first.unterminated]
  · obtain ⟨quiet, quiet'⟩ := forall_mem_cons.mp quiet
    obtain ⟨grammatical, grammatical'⟩ := forall_mem_cons.mp grammatical
    rw [later.value quiet' grammatical', value quiet grammatical, append_assoc, flatMap_cons]

/-- A string is scanned as it is read; where nothing is read, the scanner stops. -/
def StringScansAs (s : Scanner) (outcome : Outcome Scanner) (sofar : Text) : Option (List Reading × Ending) → Prop
  | some read => ∃ s', outcome = .ok s' ∧ ScansString s s' sofar read.1 read.2
  | none => ∃ message, outcome = .panic message

theorem StringScansAs.cons {s₁ : Scanner} {sofar' : Text} {read : Option (List Reading × Ending)} (first : Reaches s s₁ text (¬r.Quiet))
    (value : r.Quiet → r.Grammatical → sofar' = sofar ++ r.value) (later : StringScansAs s₁ outcome sofar' read) :
    StringScansAs s outcome sofar (read.map (Prod.map (r :: ·) id)) := by
  cases read with
  | none => exact later
  | some read =>
    obtain ⟨s', scanned, scans⟩ := later
    exact ⟨s', scanned, scans.cons first value⟩

theorem StringScansAs.of_reaches {s₁ : Scanner} {read : Option (List Reading × Ending)} (first : Reaches s s₁ text False)
    (later : StringScansAs s₁ outcome sofar read) : StringScansAs s outcome sofar read := by
  cases read with
  | none => exact later
  | some read =>
    obtain ⟨s', scanned, scans⟩ := later
    obtain ⟨added, whole, some_⟩ := first.diagnostics
    have nothing : added = [] := by
      by_contra loud
      exact some_.mp loud
    rw [nothing, append_nil] at whole
    refine ⟨s', scanned, scans.same.trans first.same, ?_, ?_, scans.place, scans.value⟩
    · rw [← whole]
      exact scans.diagnostics
    · rw [scans.unterminated, first.unterminated]

theorem collect_between {acc : Text} (between : dropBytes s.text s.pos = none) : ∃ message, s.collect (some acc) s.pos = .panic message := by
  unfold Scanner.collect Scanner.cut slice
  rw [if_pos (Nat.le_refl _), between]
  exact ⟨_, rfl⟩

theorem scanStringLoop_scans (enough : text.length < fuel) (collects : Collects s result valueStart start sofar text) :
    StringScansAs s (Scanner.scanStringLoop isIdentifierPart false quote valueStart fuel result start s) sofar
      (readString quote fuel text) := by
  induction fuel generalizing text result start s sofar with
  | zero => exact absurd enough (Nat.not_lt_zero _)
  | succ fuel ih =>
    rw [Scanner.scanStringLoop]
    cases text with
    | nil =>
      rw [charAndSize_nil collects.place]
      exact ScansString.unended collects
    | cons c text =>
      have size := c.utf8Size_pos
      have enough' : text.length < fuel := Nat.lt_of_succ_lt_succ enough
      rw [charAndSize_cons collects.place, readString]
      dsimp only
      rw [if_neg (Nat.ne_of_gt size)]
      by_cases closes : c = quote
      · subst closes
        have after : (s.move (s.pos + c.utf8Size)).At text := collects.place.move rfl
        rw [if_pos rfl, if_pos rfl]
        refine ScansString.ended collects rfl ⟨[], (append_nil _).symm, by simp⟩ (by simp; rfl) fun _ same => ?_
        cases same
        exact after
      rw [if_neg closes, if_neg closes]
      by_cases escapes : c = '\\'
      · subst escapes
        have scans := @scanEscapeSequence_scans text s isIdentifierPart collects.place
        rw [if_pos ⟨rfl, Bool.false_ne_true⟩, if_pos rfl, collects.owned, Outcome.monad_bind, Outcome.bind_ok]
        cases first : readEscape text with
        | none =>
          rw [first] at scans
          obtain ⟨escaped, s₁, scanned, between, none⟩ := scans
          obtain ⟨message, panics⟩ := @collect_between s₁ (sofar ++ escaped) between
          obtain ⟨fuel, rfl⟩ := Nat.exists_eq_succ_of_ne_zero (Nat.ne_of_gt (Nat.zero_lt_of_lt enough'))
          refine ⟨message, ?_⟩
          rw [scanned, Outcome.monad_bind, Outcome.bind_ok]
          dsimp only
          rw [Scanner.scanStringLoop, none, Option.getD_some]
          dsimp only
          rw [if_pos rfl, panics]
          rfl
        | some read =>
          rw [first] at scans
          obtain ⟨escaped, s₁, scanned, reached, value⟩ := scans
          have shorter : read.2.length < fuel := Nat.lt_of_le_of_lt (readEscape_follows _ first).suffix.length_le enough'
          rw [scanned, Outcome.monad_bind, Outcome.bind_ok]
          have collected : Collects s₁ (some (sofar ++ escaped)) valueStart s₁.pos (sofar ++ escaped) read.2 := .escape reached.place
          exact (ih shorter collected).cons reached fun quiet grammatical => by rw [value quiet grammatical]
      rw [if_neg escapes, if_neg fun both => escapes both.1]
      by_cases line : c = '\n' ∨ c = '\r'
      · rw [if_pos line, if_pos ⟨line, Bool.false_ne_true⟩]
        exact ScansString.unended collects
      rw [if_neg line, if_neg fun both => line both.1]
      have first := (Reaches.refl collects.place).move (collects.place.move rfl)
      exact (ih enough' collects.character).cons (first.congr (iff_of_false id (not_not_intro ⟨by simp, by simp⟩))) fun _ _ => rfl
end

variable {quote : Char} {body rest : Text} {s s' : Scanner} {isIdentifierPart : Char → Bool} {readings : List Reading} {ending : Ending}

theorem readString_plain {literal : Text} {fuel : Nat} (plain : ∀ c ∈ literal, c ≠ quote ∧ c ≠ '\\' ∧ ¬(c = '\n' ∨ c = '\r'))
    (enough : literal.length < fuel) :
    readString quote fuel (literal ++ quote :: rest) = some (literal.map fun c => .exact [c], .closed rest) := by
  induction literal generalizing fuel with
  | nil =>
    obtain ⟨fuel, rfl⟩ := Nat.exists_eq_succ_of_ne_zero (Nat.ne_of_gt enough)
    exact if_pos rfl
  | cons c literal ih =>
    obtain ⟨fuel, rfl⟩ := Nat.exists_eq_succ_of_ne_zero (Nat.ne_of_gt (Nat.zero_lt_of_lt enough))
    obtain ⟨⟨closes, escapes, line⟩, plain⟩ := forall_mem_cons.mp plain
    rw [cons_append, readString, if_neg closes, if_neg escapes, if_neg line, ih plain (Nat.lt_of_succ_lt_succ enough)]
    rfl

theorem scansString_copied {literal : Text} (place : s.At (literal ++ quote :: rest)) :
    ScansString s ((s.move (s.pos + bytes literal + quote.utf8Size)).setTokenValue none s.pos (s.pos + bytes literal)) []
      (literal.map fun c => .exact [c]) (.closed rest) := by
  have after : (s.move (s.pos + bytes literal)).At (quote :: rest) := place.moveBy rfl
  have closed : (s.move (s.pos + bytes literal + quote.utf8Size)).At rest := after.move rfl
  refine ⟨rfl, ⟨[], (append_nil _).symm, iff_of_false (fun same => same rfl) ?_⟩, (or_iff_left fun same => by cases same).symm,
    fun rest' same => ?_, fun _ _ => ?_⟩
  · rintro (same | ⟨r, listed, loud⟩)
    · cases same
    · obtain ⟨c, -, rfl⟩ := mem_map.mp listed
      exact loud ⟨by simp, by simp⟩
  · cases same
    exact closed
  have value : (literal.map fun c => Reading.exact [c]).flatMap Reading.value = literal := by
    rw [flatMap_map]
    exact flatMap_singleton' literal
  obtain ⟨before, whole, pos⟩ := place.split
  rw [value]
  change slice s.text s.pos (s.pos + bytes literal) = _
  rw [whole, ← pos, ← append_assoc, slice_append]
  rfl

theorem exists_rest (closes : quote ∈ body) : ∃ rest, body = body.takeWhile (· ≠ quote) ++ quote :: rest := by
  induction body with
  | nil => cases closes
  | cons c body ih =>
    by_cases same : c = quote
    · refine ⟨body, ?_⟩
      rw [takeWhile_cons, if_neg (by simp [same]), same]
      rfl
    · obtain ⟨rest, shape⟩ := ih ((mem_cons.mp closes).resolve_left (Ne.symm same))
      refine ⟨rest, ?_⟩
      rw [takeWhile_cons, if_pos (decide_eq_true same), cons_append, ← shape]

theorem eq_nil_of_bytes {text : Text} (none : bytes text = 0) : text = [] :=
  eq_nil_of_length_eq_zero (Nat.eq_zero_of_le_zero (none ▸ length_le_bytes text))

theorem collects_opened (place : s.At body) : Collects s none s.pos s.pos [] body := by
  obtain ⟨before, whole, pos⟩ := place.split
  exact ⟨⟨before, [], by rw [whole, append_nil], pos.symm, pos.symm, rfl⟩, fun _ => rfl⟩

theorem scanStringFrom_scans (place : s.At body) :
    StringScansAs s (Scanner.scanStringFrom isIdentifierPart false quote s) [] (readString quote (bytes body + 1) body) := by
  have enough : body.length < bytes body + 1 := Nat.lt_succ_of_le (length_le_bytes body)
  obtain ⟨before, whole, pos⟩ := place.split
  have all : bytes s.text = s.pos + bytes body := by rw [whole, ← pos, bytes_append]
  have fuel : bytes s.text + 1 - s.pos = bytes body + 1 := by omega
  have cut : s.cut s.pos (bytes s.text) = .ok body := Scanner.At.cut (by rwa [append_nil]) all
  have loops := @scanStringLoop_scans quote body [] s s.pos s.pos (bytes body + 1) none isIdentifierPart enough (collects_opened place)
  unfold Scanner.scanStringFrom
  rw [cut, Outcome.monad_bind, Outcome.bind_ok, fuel]
  by_cases closes : quote ∈ body
  · obtain ⟨rest, shape⟩ := exists_rest closes
    have apart : ∀ c ∈ body.takeWhile (· ≠ quote), c ≠ quote := fun c listed =>
      of_decide_eq_true (@List.mem_takeWhile_imp Char (· ≠ quote) body c listed)
    rw [if_pos closes]
    generalize body.takeWhile (· ≠ quote) = literal at shape apart ⊢
    subst shape
    have copied (plain : ∀ c ∈ literal, c ≠ '\\' ∧ ¬(c = '\n' ∨ c = '\r')) :
        StringScansAs s (.ok ((s.move (s.pos + bytes literal + quote.utf8Size)).setTokenValue none s.pos (s.pos + bytes literal))) []
          (readString quote (bytes (literal ++ quote :: rest) + 1) (literal ++ quote :: rest)) := by
      have length := length_le_bytes literal
      rw [readString_plain (fun c listed => ⟨apart c listed, plain c listed⟩) (by rw [bytes_append]; omega)]
      exact ⟨_, rfl, scansString_copied place⟩
    by_cases empty : bytes literal = 0
    · refine (if_pos empty).symm ▸ copied ?_
      rw [eq_nil_of_bytes empty]
      simp
    by_cases simple : '\r' ∉ literal ∧ '\n' ∉ literal ∧ '\\' ∉ literal
    · rw [if_neg empty, if_pos (.inr simple)]
      refine copied fun c listed => ⟨?_, ?_⟩
      · rintro rfl
        exact simple.2.2 listed
      · rintro (rfl | rfl)
        · exact simple.2.1 listed
        · exact simple.1 listed
    rw [if_neg empty, if_neg (not_or.mpr ⟨Bool.false_ne_true, simple⟩)]
    exact loops
  rw [if_neg closes]
  exact loops

theorem scanString_scans (place : s.At (quote :: body)) (marks : quote = '"' ∨ quote = '\'') :
    StringScansAs s (s.scanStringAndSetTokenValue isIdentifierPart false) [] (readString quote (bytes body + 1) body) := by
  have first : s.char = quote := by
    refine (place.char_eq_iff ?_ ?_).mpr rfl
    all_goals rcases marks with rfl | rfl
    all_goals decide
  unfold Scanner.scanStringAndSetTokenValue
  rw [first]
  have opened (s₁ : Scanner) (reached : Reaches s s₁ (quote :: body) False) :
      StringScansAs s (Scanner.scanStringFrom isIdentifierPart false quote (s₁.move (s₁.pos + quote.utf8Size))) []
        (readString quote (bytes body + 1) body) :=
    (scanStringFrom_scans (reached.place.move rfl)).of_reaches (reached.move (reached.place.move rfl))
  dsimp only
  by_cases single : quote = '\''
  · rw [if_pos single]
    exact opened _ ((Reaches.refl place).flag (by simp))
  · rw [if_neg single]
    exact opened _ (Reaches.refl place)

theorem readString_wellFormed {fuel : Nat} (read : readString quote fuel body = some (readings, ending)) :
    ∀ r ∈ readings, r.WellFormed := by
  induction fuel generalizing body readings with
  | zero =>
    cases read
    simp
  | succ fuel ih =>
    cases body with
    | nil =>
      cases read
      simp
    | cons c body =>
      rw [readString] at read
      by_cases closes : c = quote
      · rw [if_pos closes] at read
        cases read
        simp
      rw [if_neg closes] at read
      by_cases escapes : c = '\\'
      · rw [if_pos escapes] at read
        obtain ⟨⟨r, more⟩, first, found⟩ := Option.bind_eq_some_iff.mp read
        obtain ⟨⟨readings', ending'⟩, later, same⟩ := Option.map_eq_some_iff.mp found
        cases same
        exact forall_mem_cons.mpr ⟨(readEscape_follows _ first).wellFormed, ih later⟩
      rw [if_neg escapes] at read
      by_cases line : c = '\n' ∨ c = '\r'
      · rw [if_pos line] at read
        cases read
        simp
      · rw [if_neg line] at read
        obtain ⟨⟨readings', ending'⟩, later, same⟩ := Option.map_eq_some_iff.mp read
        cases same
        exact forall_mem_cons.mpr ⟨fun _ same => (by cases same), ih later⟩

theorem ScansString.noError_iff (fresh : .unterminated ∉ s.tokenFlags) (scans : ScansString s s' [] readings ending) :
    (s'.diagnostics = s.diagnostics ∧ .unterminated ∉ s'.tokenFlags) ↔ ending ≠ .unterminated ∧ ∀ r ∈ readings, r.Quiet := by
  obtain ⟨added, whole, some_⟩ := scans.diagnostics
  have errors : s'.diagnostics = s.diagnostics ↔ ¬(ending = .unterminated ∨ ∃ r ∈ readings, ¬r.Quiet) := by
    rw [whole, append_right_eq_self, ← some_, not_not]
  have flag : .unterminated ∉ s'.tokenFlags ↔ ending ≠ .unterminated := by rw [scans.unterminated, or_iff_right fresh]
  rw [errors, flag, not_or]
  simp only [not_exists, not_and, not_not]
  exact and_iff_left_of_imp fun both => both.1

/-- A string literal at the scanner's place is scanned without an error exactly if the grammar has it, and then to its end and with its
string value, if that is a text. -/
def ScannedExactly (isIdentifierPart : Char → Bool) (quote : Char) (body : Text) (s : Scanner) : Prop :=
  ∃ s', s.scanStringAndSetTokenValue isIdentifierPart false = .ok s' ∧
    ((s'.diagnostics = s.diagnostics ∧ .unterminated ∉ s'.tokenFlags) ↔ ∃ units rest, IsStringLiteral quote body units rest) ∧
    ∀ units rest, IsStringLiteral quote body units rest → s'.At rest ∧
      ∀ value, Utf16.decode units = some value → s'.tokenValueText = some value

/-- The reading does not stop at an escape. And if it comes to the closing quote and no escape is refused, there is an escaped null
character only with a number that is too large for its register; and if there is neither and the code units are a text, everything is
read as what it stands for. -/
def ReadExactly (quote : Char) (body : Text) : Prop :=
  ∃ readings ending, readString quote (bytes body + 1) body = some (readings, ending) ∧
    (ending ≠ .unterminated → .refused ∉ readings → (.null ∈ readings ↔ .overflow ∈ readings) ∧
      (.overflow ∉ readings → (Utf16.decode (readings.flatMap Reading.units)).isSome → ∀ r ∈ readings, r.IsExact))

theorem forall_quiet_iff : (∀ r ∈ readings, r.Quiet) ↔ .null ∉ readings ∧ .refused ∉ readings := by
  constructor
  · exact fun quiet => ⟨fun listed => (quiet _ listed).1 rfl, fun listed => (quiet _ listed).2 rfl⟩
  · rintro ⟨null, refused⟩ r listed
    exact ⟨fun same => null (same ▸ listed), fun same => refused (same ▸ listed)⟩

theorem forall_grammatical_iff : (∀ r ∈ readings, r.Grammatical) ↔ .refused ∉ readings ∧ .overflow ∉ readings := by
  constructor
  · exact fun grammatical => ⟨fun listed => (grammatical _ listed).1 rfl, fun listed => (grammatical _ listed).2 rfl⟩
  · rintro ⟨refused, overflow⟩ r listed
    exact ⟨fun same => refused (same ▸ listed), fun same => overflow (same ▸ listed)⟩

def scannerOf (text : Text) : Scanner := ⟨text, 0, .none, ∅, []⟩

def pairedBody : Text :=
  ['\\', 'u', '\x7b', 'e', '9', '\x7d', '\\', 'u', 'D', '8', '3', 'D', '\\', 'u', 'D', 'C', 'A', '5', '\\', '\r', '\n', 'b', '"', ';']

def overflowBody : Text := ['\\', 'u', '\x7b', '1', '0', '0', '0', '0', '0', '0', '0', '0', '\x7d', '\'']

end TypeScriptRs.Syntax
