import TypeScriptRs.Lsconv.Converters

/-! Positions between characters come back from their line and character, and keep their order. -/
namespace TypeScriptRs.Lsconv
open Machine Utf8 List

section
variable {offset : Nat}

theorem toTextPos_eq (fits : offset < 2 ^ 31) : toTextPos offset = offset := by
  exact i32_of_range (by omega) (by omega)

theorem toUsize_eq (fits : offset < 2 ^ 31) : toUsize offset = offset := by
  unfold toUsize
  omega

theorem toU32_eq (fits : offset < 2 ^ 31) : toU32 offset = offset := by
  unfold toU32
  omega

theorem i32_eq (fits : offset < 2 ^ 31) : i32 offset = offset := toTextPos_eq fits
end

section
variable {before after : Text}

theorem lineEnds_length (before after : Text) (pos : Nat) : (lineEnds before after pos).length ≤ bytes before := by
  induction before generalizing pos with
  | nil => simp [lineEnds]
  | cons c before ih =>
    have size := c.utf8Size_pos
    have later := ih (pos + c.utf8Size)
    rw [lineEnds, bytes_cons]
    split
    · rw [length_cons]
      omega
    · omega

variable (fits : bytes (before ++ after) < 2 ^ 31)
include fits

theorem lineStarts_eq : (computeLspLineStarts (before ++ after)).lineStarts =
      (0 :: lineEnds before after 0).map Nat.cast ++ (lineEnds after [] (bytes before)).map Nat.cast := by
  rw [computeLspLineStarts_eq, lineEnds_append, append_nil, Nat.zero_add, ← map_append]
  refine map_congr_left ?_
  intro e listed
  refine toTextPos_eq (lt_of_le_of_lt ?_ fits)
  rw [bytes_append]
  rcases mem_cons.mp listed with rfl | listed
  · exact Nat.zero_le _
  rcases mem_append.mp listed with here | later
  · have bounds := lineEnds_bounds before after 0 e here
    omega
  · have bounds := lineEnds_bounds after [] (bytes before) e later
    omega

theorem computeIndexOfLineStart_eq : (computeLspLineStarts (before ++ after)).computeIndexOfLineStart (bytes before) =
      (lineEnds before after 0).length := by
  have low : ∀ a ∈ (0 :: lineEnds before after 0).map (Nat.cast : Nat → Int), a ≤ (bytes before : Int) := by
    intro a listed
    obtain ⟨e, member, rfl⟩ := mem_map.mp listed
    rcases mem_cons.mp member with rfl | member
    · simp
    · have bounds := lineEnds_bounds before after 0 e member
      omega
  have high : ∀ b ∈ (lineEnds after [] (bytes before)).map (Nat.cast : Nat → Int), (bytes before : Int) < b := by
    intro b listed
    obtain ⟨e, member, rfl⟩ := mem_map.mp listed
    have bounds := lineEnds_bounds after [] (bytes before) e member
    omega
  unfold LspLineMap.computeIndexOfLineStart
  rw [lineStarts_eq fits]
  rcases BinarySearch.search_append low high (by simp) with found | missing
  · rw [found]
    simp
  · rw [missing]
    simp

theorem lineStart_eq : (computeLspLineStarts (before ++ after)).lineStarts[(lineEnds before after 0).length]? =
      some (((lineEnds before after 0).getLastD 0 : Nat) : Int) := by
  rw [lineStarts_eq fits, List.getElem?_append_left (by simp), List.getElem?_map]
  have last : (0 :: lineEnds before after 0)[(lineEnds before after 0).length]? =
      some ((lineEnds before after 0).getLastD 0) := by
    have ends := List.getLast?_eq_getElem? (l := 0 :: lineEnds before after 0)
    simpa [List.getLast?_cons, getLastD_eq_getLast?] using ends.symm
  rw [last]
  rfl

theorem lineEnd_bounds (line : Nat) (here : line = (lineEnds before after 0).length) :
    ∃ stop : Nat, (if line + 1 < (computeLspLineStarts (before ++ after)).lineStarts.length then
        (computeLspLineStarts (before ++ after)).lineStarts.getD (line + 1) 0
      else toTextPos (bytes (before ++ after))) = (stop : Int) ∧ bytes before ≤ stop ∧ stop ≤ bytes (before ++ after) := by
  rw [lineStarts_eq fits, here]
  have whole : bytes (before ++ after) = bytes before + bytes after := bytes_append before after
  cases ends : lineEnds after [] (bytes before) with
  | nil =>
    refine ⟨bytes (before ++ after), ?_, by omega, le_rfl⟩
    rw [if_neg (by simp)]
    exact toTextPos_eq fits
  | cons e rest =>
    have bounds := lineEnds_bounds after [] (bytes before) e (by simp [ends])
    refine ⟨e, ?_, by omega, by omega⟩
    simp
end

section
variable {text : Text} {encoding : PositionEncodingKind}

theorem unitsOf_cons (units : Char → Nat) (c : Char) (text : Text) :
    unitsOf units (c :: text) = units c + unitsOf units text := by
  simp [unitsOf]

theorem unitsOf_utf8 (text : Text) : unitsOf Char.utf8Size text = bytes text := rfl

theorem unitsOf_utf16_le (text : Text) : unitsOf utf16Size text ≤ bytes text := by
  induction text with
  | nil => exact le_rfl
  | cons c text ih =>
    have size := utf16Size_le c
    rw [unitsOf_cons, bytes_cons]
    omega

theorem unitsOf_ascii (ascii : text.all isAscii = true) : unitsOf utf16Size text = bytes text := by
  induction text with
  | nil => rfl
  | cons c text ih =>
    obtain ⟨first, rest⟩ := Bool.and_eq_true_iff.mp ascii
    have size := utf16Size_le c
    have positive := utf16Size_pos c
    have one := isAscii_utf8Size first
    rw [unitsOf_cons, bytes_cons, ih rest]
    omega

theorem foldl_utf16 (text : Text) (sum : Nat) (fits : sum + unitsOf utf16Size text < 2 ^ 31) :
    text.foldl (fun sum r => i32 (sum + utf16Size r)) (sum : Int) = ((sum + unitsOf utf16Size text : Nat) : Int) := by
  induction text generalizing sum with
  | nil => rfl
  | cons c text ih =>
    rw [unitsOf_cons, ← Nat.add_assoc] at fits ⊢
    have next : i32 ((sum : Int) + utf16Size c) = ((sum + utf16Size c : Nat) : Int) := by
      exact i32_eq (by omega)
    rw [foldl_cons, next, ih (sum + utf16Size c) fits]

theorem scanUtf16_eq (done rest after : Text) (ch stop : Nat) (fits : bytes (done ++ rest ++ after) < 2 ^ 31)
    (within : stop ≤ bytes (done ++ rest ++ after)) (few : ch ≤ bytes (done ++ rest)) :
    ∀ fuel (seen : Nat), bytes rest ≤ fuel → bytes done + bytes rest ≤ stop → seen + unitsOf utf16Size rest = ch →
      scanUtf16 (done ++ rest ++ after) ch stop fuel seen (bytes done) = .ok (bytes done + bytes rest) := by
  induction rest generalizing done with
  | nil =>
    intro fuel seen enough inside count
    rw [append_nil] at fits within few ⊢
    rw [bytes_nil, Nat.add_zero]
    have seen_ : seen = ch := count
    rw [bytes_append] at fits within
    cases fuel with
    | zero => rfl
    | succ fuel =>
      rw [scanUtf16]
      split
      · cases after with
        | nil =>
          rw [bytes_nil] at within
          omega
        | cons c after =>
          rw [bytes_cons] at fits
          have positive := utf16Size_pos c
          have size := utf16Size_le c
          have next : i32 ((seen : Int) + utf16Size c) = ((seen + utf16Size c : Nat) : Int) := by
            exact i32_eq (by omega)
          simp only [dropBytes_append, headD_cons, next]
          rw [if_pos (by omega)]
      · rfl
  | cons c rest ih =>
    intro fuel seen enough inside count
    have positive := c.utf8Size_pos
    rw [unitsOf_cons] at count
    rw [bytes_cons] at enough inside ⊢
    have shape : done ++ c :: rest = (done ++ [c]) ++ rest := by simp
    have total : bytes (done ++ c :: rest) ≤ bytes (done ++ c :: rest ++ after) := by
      rw [bytes_append _ after]
      exact Nat.le_add_right _ _
    obtain ⟨fuel, rfl⟩ := Nat.exists_eq_add_of_le' (show 1 ≤ fuel by omega)
    have next : i32 ((seen : Int) + utf16Size c) = ((seen + utf16Size c : Nat) : Int) := by
      exact i32_eq (by omega)
    have later := ih (done ++ [c]) (shape ▸ fits) (shape ▸ within) (shape ▸ few) fuel (seen + utf16Size c) (by omega)
      (by simp only [bytes_append, bytes_cons, bytes_nil]; omega) (by omega)
    rw [scanUtf16, if_pos (by omega), append_assoc, dropBytes_append, ← append_assoc]
    simp only [cons_append, headD_cons, next]
    rw [if_neg (by omega)]
    simpa [Nat.add_assoc] using later

theorem unitsOf_fast (known : encoding = .utf8 ∨ encoding = .utf16)
    (fast : text.all isAscii = true ∨ encoding = .utf8) : unitsOf encoding.units text = bytes text := by
  rcases known with rfl | rfl
  · exact unitsOf_utf8 text
  · rcases fast with ascii | other
    · exact unitsOf_ascii ascii
    · cases other

theorem unitsOf_le (known : encoding = .utf8 ∨ encoding = .utf16) (text : Text) : unitsOf encoding.units text ≤ bytes text := by
  rcases known with rfl | rfl
  · exact le_rfl
  · exact unitsOf_utf16_le text
end

variable {converters : Converters} {script : Script} {before after : Text}

theorem located (units : Char → Nat) (before after : Text) : ∃ done rest, before = done ++ rest ∧
    bytes done = (lineEnds before after 0).getLastD 0 ∧
    countFrom units before after ⟨0, 0⟩ = ⟨(lineEnds before after 0).length, unitsOf units rest⟩ := by
  obtain ⟨done, rest, shape, last, count⟩ := countFrom_eq units before after [] 0 0 0 rfl
  rw [Nat.zero_add] at last count
  exact ⟨done, rest, shape, last, count⟩

section
variable (knows : converters.getLineMap script.fileName = computeLspLineStarts script.text) (encoding : converters.positionEncoding = .utf8 ∨ converters.positionEncoding = .utf16) (whole : script.text = before ++ after) (fits : bytes script.text < 2 ^ 31)
include knows encoding whole fits

theorem positionToLineAndCharacter_eq : converters.positionToLineAndCharacter script (bytes before) =
      .ok (countFrom converters.positionEncoding.units before after ⟨0, 0⟩) := by
  obtain ⟨done, rest, shape, last, count⟩ := located converters.positionEncoding.units before after
  rw [whole] at fits knows
  have total : bytes (before ++ after) = bytes before + bytes after := bytes_append before after
  have cut : bytes before = bytes done + bytes rest := by rw [shape, bytes_append]
  have lines := lineEnds_length before after 0
  have clamp : max 0 (min (bytes before : Int) (toTextPos (bytes (before ++ after)))) = (bytes before : Int) := by
    rw [toTextPos_eq fits]
    omega
  have line : (lineEnds before after 0).length % 2 ^ 32 = (lineEnds before after 0).length := by omega
  unfold Converters.positionToLineAndCharacter
  simp only [knows, whole, clamp, computeIndexOfLineStart_eq fits, lineStart_eq fits, ← last, line, count]
  split
  · rename_i fast
    have ascii : rest.all isAscii = true ∨ converters.positionEncoding = .utf8 := by
      rw [computeLspLineStarts_eq, shape] at fast
      exact fast.imp_left fun all => by simp_all
    have difference : (bytes before : Int) - bytes done = (bytes rest : Nat) := by omega
    rw [unitsOf_fast encoding ascii, difference, i32_eq (by omega), toU32_eq (by omega)]
  rename_i slow
  have utf16 : converters.positionEncoding = .utf16 := encoding.resolve_left fun utf8 => slow (.inr utf8)
  have piece : slice (before ++ after) (bytes done) (bytes before) = some rest := by
    rw [shape, bytes_append]
    exact slice_append done rest after
  have few := unitsOf_utf16_le rest
  have sum := foldl_utf16 rest 0 (by omega)
  rw [Nat.zero_add, Nat.cast_zero] at sum
  rw [toUsize_eq (by omega), toUsize_eq (by omega), piece, utf16]
  simp only [sum]
  rw [toU32_eq (by omega)]
  rfl

theorem lineAndCharacterToPosition_eq :
    converters.lineAndCharacterToPosition script (countFrom converters.positionEncoding.units before after ⟨0, 0⟩) =
      .ok (bytes before) := by
  obtain ⟨done, rest, shape, last, count⟩ := located converters.positionEncoding.units before after
  rw [whole] at fits knows
  have cut : bytes before = bytes done + bytes rest := by rw [shape, bytes_append]
  have lines := lineEnds_length before after 0
  have few := unitsOf_le encoding rest
  have inside : ¬(lineEnds before after 0).length ≥ (computeLspLineStarts (before ++ after)).lineStarts.length := by
    rw [lineStarts_eq fits]
    simp only [length_append, length_map, length_cons]
    omega
  have start : (computeLspLineStarts (before ++ after)).lineStarts.getD (lineEnds before after 0).length 0 =
      (bytes done : Int) := by
    rw [getD_eq_getElem?_getD, lineStart_eq fits, ← last]
    rfl
  obtain ⟨stop, stopEq, low, high⟩ := lineEnd_bounds fits _ rfl
  unfold Converters.lineAndCharacterToPosition
  simp only [knows, whole, count]
  rw [toTextPos_eq (show (lineEnds before after 0).length < 2 ^ 31 by omega), toUsize_eq (by omega),
    toTextPos_eq (show unitsOf converters.positionEncoding.units rest < 2 ^ 31 by omega), if_neg inside, start, stopEq]
  split
  · rename_i fast
    have ascii : rest.all isAscii = true ∨ converters.positionEncoding = .utf8 := by
      rw [computeLspLineStarts_eq, shape] at fast
      exact fast.imp_left fun all => by simp_all
    have clamp : max (bytes done : Int) (min (bytes before : Int) stop) = bytes before := by omega
    rw [unitsOf_fast encoding ascii, ← Nat.cast_add, ← cut, i32_eq (by omega), clamp]
  rename_i slow
  have utf16 : converters.positionEncoding = .utf16 := encoding.resolve_left fun utf8 => slow (.inr utf8)
  rw [utf16] at few
  have scan := scanUtf16_eq done rest after (unitsOf utf16Size rest) stop (shape ▸ fits) (shape ▸ high)
    (by rw [← shape, cut]; exact few.trans (Nat.le_add_left _ _)) stop 0 (by omega) (by omega) (Nat.zero_add _)
  rw [← shape, Nat.cast_zero] at scan
  have run : scanUtf16 (before ++ after) (unitsOf converters.positionEncoding.units rest) stop stop 0 (bytes done) =
      .ok (bytes before) := by
    rw [utf16, cut]
    exact scan
  rw [toUsize_eq (by omega), toUsize_eq (by omega), run]
  exact congrArg Outcome.ok (toTextPos_eq (by omega))
end

/-- A position between two characters has the line and the character counted over the text,
and comes back from them. -/
theorem position_roundTrip (knows : converters.getLineMap script.fileName = computeLspLineStarts script.text)
    (encoding : converters.positionEncoding = .utf8 ∨ converters.positionEncoding = .utf16)
    (whole : script.text = before ++ after) (fits : bytes script.text < 2 ^ 31) :
    converters.positionToLineAndCharacter script (bytes before) =
        .ok (countFrom converters.positionEncoding.units before after ⟨0, 0⟩) ∧
      converters.lineAndCharacterToPosition script (countFrom converters.positionEncoding.units before after ⟨0, 0⟩) =
        .ok (bytes before) :=
  ⟨positionToLineAndCharacter_eq knows encoding whole fits, lineAndCharacterToPosition_eq knows encoding whole fits⟩

theorem position_roundTrip_surrogates :
    let converters : Converters := ⟨fun _ => computeLspLineStarts "a\r\n😀b".toList, .utf16⟩
    let script : Script := ⟨"test.ts", "a\r\n😀b".toList⟩
    converters.positionToLineAndCharacter script 7 = .ok ⟨1, 2⟩ ∧
      converters.lineAndCharacterToPosition script ⟨1, 2⟩ = .ok 7 :=
  @position_roundTrip _ ⟨"test.ts", "a\r\n😀b".toList⟩ "a\r\n😀".toList ['b'] rfl (.inr rfl) rfl (by decide)

/-- Beyond 2 GiB the length of a text wraps to a negative position, and every position is
clamped to the first one. -/
theorem longText_clamped {converters : Converters} {script : Script} (long : bytes script.text = 2 ^ 31) :
    converters.positionToLineAndCharacter script 1 = converters.positionToLineAndCharacter script 0 := by
  have length : toTextPos (bytes script.text) = -2 ^ 31 := by
    rw [long]
    decide
  unfold Converters.positionToLineAndCharacter
  rw [length]
  rfl

theorem longText_loses :
    let text : Text := List.replicate (2 ^ 31) 'a'
    let converters : Converters := ⟨fun _ => computeLspLineStarts text, .utf16⟩
    let script : Script := ⟨"test.ts", text⟩
    ¬∀ before after, text = before ++ after → ∃ at_,
      converters.positionToLineAndCharacter script (bytes before) = .ok at_ ∧
        converters.lineAndCharacterToPosition script at_ = .ok (bytes before) := by
  intro text converters script all
  have long : bytes script.text = 2 ^ 31 := bytes_replicate (2 ^ 31) 'a'
  obtain ⟨first, there, back⟩ := all [] text rfl
  obtain ⟨second, there', back'⟩ := all ['a'] (List.replicate (2 ^ 31 - 1) 'a') rfl
  have same : second = first := by
    have one : converters.positionToLineAndCharacter script 1 = .ok second := there'
    rw [longText_clamped long] at one
    exact Outcome.ok.inj (one.symm.trans there)
  rw [same] at back'
  exact absurd (back.symm.trans back') (by decide)

def Position.Precedes (p q : Position) : Prop := p.line < q.line ∨ p.line = q.line ∧ p.character < q.character

theorem countFrom_append (units : Char → Nat) (before middle after : Text) (at_ : Position) :
    countFrom units (before ++ middle) after at_ = countFrom units middle after (countFrom units before (middle ++ after) at_) := by
  induction before generalizing at_ with
  | nil => rfl
  | cons c before ih =>
    rw [cons_append, countFrom, countFrom, append_assoc]
    split
    · exact ih _
    · exact ih _

theorem countFrom_precedes {units : Char → Nat} (positive : ∀ c, 0 < units c) {text : Text} (filled : text ≠ []) (after : Text)
    (at_ : Position) : at_.Precedes (countFrom units text after at_) := by
  induction text generalizing at_ with
  | nil => exact absurd rfl filled
  | cons c text ih =>
    rw [countFrom]
    by_cases last : text = []
    · subst last
      split
      · exact .inl (Nat.lt_succ_self _)
      · exact .inr ⟨rfl, Nat.lt_add_of_pos_right (positive c)⟩
    · split
      · rcases ih last ⟨at_.line + 1, 0⟩ with below | ⟨same, -⟩
        · exact .inl (Nat.lt_of_succ_lt below)
        · exact .inl (Nat.lt_of_succ_le same.le)
      · rcases ih last ⟨at_.line, at_.character + units c⟩ with below | ⟨same, right⟩
        · exact .inl below
        · exact .inr ⟨same, Nat.lt_of_le_of_lt (Nat.le_add_right _ _) right⟩

/-- A later position has a later line, or a later character in the same line. -/
theorem position_order {middle : Text} (knows : converters.getLineMap script.fileName = computeLspLineStarts script.text)
    (encoding : converters.positionEncoding = .utf8 ∨ converters.positionEncoding = .utf16)
    (whole : script.text = before ++ middle ++ after) (fits : bytes script.text < 2 ^ 31) (filled : middle ≠ []) :
    ∃ p q, converters.positionToLineAndCharacter script (bytes before) = .ok p ∧
      converters.positionToLineAndCharacter script (bytes (before ++ middle)) = .ok q ∧ p.Precedes q := by
  refine ⟨_, _, positionToLineAndCharacter_eq knows encoding (whole.trans (append_assoc _ _ _)) fits,
    positionToLineAndCharacter_eq knows encoding whole fits, ?_⟩
  rw [countFrom_append]
  refine countFrom_precedes (fun c => ?_) filled _ _
  rcases encoding with known | known
  · rw [known]
    exact c.utf8Size_pos
  · rw [known]
    show 0 < utf16Size c
    unfold utf16Size
    split <;> decide

theorem position_order_surrogates : ∃ p q : Position,
    (⟨fun _ => computeLspLineStarts "\r\n😀".toList, .utf16⟩ : Converters).positionToLineAndCharacter ⟨"", "\r\n😀".toList⟩ 1 = .ok p ∧
    (⟨fun _ => computeLspLineStarts "\r\n😀".toList, .utf16⟩ : Converters).positionToLineAndCharacter ⟨"", "\r\n😀".toList⟩ 6 = .ok q ∧
      p.Precedes q :=
  @position_order _ ⟨"", "\r\n😀".toList⟩ ['\r'] [] "\n😀".toList rfl (.inr rfl) rfl (by decide) (by decide)

end TypeScriptRs.Lsconv
