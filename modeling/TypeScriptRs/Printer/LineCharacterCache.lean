import TypeScriptRs.Lib.BinarySearch
import TypeScriptRs.Printer.Positions

/-! The cache that goes on counting lines where the last query ended. -/
namespace TypeScriptRs.Printer
open Machine Utf8 Lines Outcome

def computeLineOfPosition (lineStarts : List Int) (pos : Int) : Nat :=
  match BinarySearch.search lineStarts (max pos 0) with
  | .ok index => index
  | .error index => index - 1

def lineStart (lineMap : List Int) (line : Nat) : Outcome Int :=
  match lineMap[line]? with
  | some start => .ok start
  | none => .panic "index out of bounds"

def textSlice (text : Text) (start stop : Int) : Outcome Text :=
  match if 0 ≤ start ∧ 0 ≤ stop then slice text start.toNat stop.toNat else none with
  | some part => .ok part
  | none => .panic "byte range is not inside the text or not at character boundaries"

structure LineCharacterCache where
  lineMap : List Int
  text : Text
  cachedLine : Nat
  cachedPos : Int
  cachedChar : Int
  hasCached : Bool
deriving DecidableEq

def newLineCharacterCache (lineMap : List Int) (text : Text) : LineCharacterCache := ⟨lineMap, text, 0, 0, 0, false⟩

namespace LineCharacterCache

def getLineAndCharacter (cache : LineCharacterCache) (pos : Int) : Outcome ((Nat × Int) × LineCharacterCache) := do
  let line := computeLineOfPosition cache.lineMap pos
  let character ←
    if cache.hasCached = true ∧ line = cache.cachedLine ∧ pos ≥ cache.cachedPos then do
      let part ← textSlice cache.text cache.cachedPos pos
      Outcome.ok (i32 (cache.cachedChar + utf16Len part))
    else do
      let start ← lineStart cache.lineMap line
      let part ← textSlice cache.text start pos
      Outcome.ok (utf16Len part)
  .ok ((line, character), { cache with cachedLine := line, cachedPos := pos, cachedChar := character, hasCached := true })

def answers (cache : LineCharacterCache) : List Int32 → Outcome (List (Nat × Int))
  | [] => .ok []
  | pos :: queries => do
    let (answer, cache) ← cache.getLineAndCharacter pos.toInt
    let later ← cache.answers queries
    .ok (answer :: later)

end LineCharacterCache

/-- The line of a position, and the UTF-16 units between the line's start and the position. -/
def lineAndCharacter (lineMap : List Int) (text : Text) (pos : Int) : Outcome (Nat × Int) := do
  let line := computeLineOfPosition lineMap pos
  let start ← lineStart lineMap line
  let part ← textSlice text start pos
  .ok (line, columnOf part)

section
variable {text part : Text} {start middle stop : Int}

theorem textSlice_eq_ok : textSlice text start stop = .ok part ↔ 0 ≤ start ∧ 0 ≤ stop ∧ slice text start.toNat stop.toNat = some part := by
  unfold textSlice
  split
  · rename_i found
    split at found
    · rename_i inside
      simp [inside, found]
    · cases found
  · rename_i missing
    split at missing
    · simp [missing]
    · rename_i outside
      simp only [reduceCtorEq, false_iff]
      exact fun ⟨low, high, _⟩ => outside ⟨low, high⟩

theorem textSlice_extend (first : textSlice text start middle = .ok part) (later : middle ≤ stop) :
    textSlice text start stop = (textSlice text middle stop).bind fun rest => .ok (part ++ rest) := by
  obtain ⟨low, inside, cut⟩ := textSlice_eq_ok.mp first
  obtain ⟨before, after, rfl, start_, middle_⟩ := slice_eq_some cut
  obtain ⟨n, rfl⟩ := Int.le.dest later
  have stop_ : (middle + n).toNat = bytes before + bytes part + n := by omega
  unfold textSlice
  rw [if_pos ⟨low, by omega⟩, if_pos ⟨inside, by omega⟩, start_, middle_, stop_, slice_extend]
  cases slice (before ++ part ++ after) (bytes before + bytes part) (bytes before + bytes part + n) <;> rfl

theorem utf16Len_textSlice (cut : textSlice text start stop = .ok part) (small : stop < 2 ^ 31) : utf16Len part = columnOf part := by
  obtain ⟨-, -, cut⟩ := textSlice_eq_ok.mp cut
  obtain ⟨before, after, -, -, stop_⟩ := slice_eq_some cut
  have counted := utf16LenFrom_eq part 0 (by omega)
  rwa [Nat.zero_add] at counted
end

namespace LineCharacterCache

variable {cache : LineCharacterCache} {pos : Int}

/-- What is cached is the character of the last query's position in its line. -/
def Valid (cache : LineCharacterCache) : Prop :=
  cache.hasCached = true → ∃ start part, lineStart cache.lineMap cache.cachedLine = .ok start ∧
    textSlice cache.text start cache.cachedPos = .ok part ∧ cache.cachedChar = columnOf part

theorem newLineCharacterCache_valid (lineMap : List Int) (text : Text) : (newLineCharacterCache lineMap text).Valid := by
  rintro ⟨⟩

theorem getLineAndCharacter_eq (valid : cache.Valid) (small : pos < 2 ^ 31) : cache.getLineAndCharacter pos =
    (lineAndCharacter cache.lineMap cache.text pos).bind fun answer =>
      .ok (answer, ⟨cache.lineMap, cache.text, answer.1, pos, answer.2, true⟩) := by
  unfold getLineAndCharacter lineAndCharacter
  dsimp only
  by_cases goes : cache.hasCached = true ∧ computeLineOfPosition cache.lineMap pos = cache.cachedLine ∧ pos ≥ cache.cachedPos
  · obtain ⟨start, part, line, cut, counted⟩ := valid goes.1
    rw [if_pos goes, goes.2.1, line, monad_bind, monad_bind, bind_ok, textSlice_extend cut goes.2.2]
    cases rest : textSlice cache.text cache.cachedPos pos with
    | err message => rfl
    | panic message => rfl
    | ok rest_ =>
      have whole : textSlice cache.text start pos = .ok (part ++ rest_) := by
        rw [textSlice_extend cut goes.2.2, rest, bind_ok]
      obtain ⟨-, -, whole⟩ := textSlice_eq_ok.mp whole
      obtain ⟨before, after, -, -, stop⟩ := slice_eq_some whole
      have few := columnOf_le (part ++ rest_)
      have sum : i32 (cache.cachedChar + utf16Len rest_) = columnOf (part ++ rest_) := by
        rw [counted, utf16Len_textSlice rest small, columnOf_append] at *
        exact i32_nat (by omega)
      simp only [monad_bind, bind_ok, sum]
  · rw [if_neg goes]
    cases lineStart cache.lineMap (computeLineOfPosition cache.lineMap pos) with
    | err message => rfl
    | panic message => rfl
    | ok start =>
      simp only [monad_bind, bind_ok]
      cases cut : textSlice cache.text start pos with
      | err message => rfl
      | panic message => rfl
      | ok part =>
        have counted := utf16Len_textSlice cut small
        simp only [bind_ok, counted]

theorem getLineAndCharacter_valid {after : LineCharacterCache} {answer : Nat × Int} (valid : cache.Valid) (small : pos < 2 ^ 31)
    (ran : cache.getLineAndCharacter pos = .ok (answer, after)) :
    after.Valid ∧ after.lineMap = cache.lineMap ∧ after.text = cache.text := by
  rw [getLineAndCharacter_eq valid small] at ran
  obtain ⟨_, scratch, ran⟩ := bind_eq_ok ran
  cases ran
  obtain ⟨start, line, scratch⟩ := bind_eq_ok scratch
  obtain ⟨part, cut, scratch⟩ := bind_eq_ok scratch
  cases scratch
  exact ⟨fun _ => ⟨start, part, line, cut, rfl⟩, rfl, rfl⟩

theorem answers_eq (valid : cache.Valid) (queries : List Int32) :
    cache.answers queries = queries.mapM fun pos => lineAndCharacter cache.lineMap cache.text pos.toInt := by
  induction queries generalizing cache with
  | nil => rfl
  | cons pos queries ih =>
    have small := pos.toInt_lt
    have step := getLineAndCharacter_eq valid small
    rw [answers, List.mapM_cons]
    cases scratch : lineAndCharacter cache.lineMap cache.text pos.toInt with
    | err message =>
      rw [step, scratch]
      rfl
    | panic message =>
      rw [step, scratch]
      rfl
    | ok answer =>
      rw [scratch, bind_ok] at step
      obtain ⟨valid', lineMap, text⟩ := getLineAndCharacter_valid valid small step
      have later := ih valid'
      rw [lineMap, text] at later
      simp only [step, monad_bind, bind_ok, later]
      rfl

end LineCharacterCache

theorem lineCharacterCache_exact (lineMap : List Int) (text : Text) (queries : List Int32) :
    (newLineCharacterCache lineMap text).answers queries = queries.mapM fun pos => lineAndCharacter lineMap text pos.toInt :=
  LineCharacterCache.answers_eq (LineCharacterCache.newLineCharacterCache_valid lineMap text) queries

-- back on the same line and to the line before, past a character of two units
example : (newLineCharacterCache [0, 3] "ab\n😀c".toList).answers [8, 7, 2, 8] = .ok [(1, 3), (1, 2), (0, 2), (1, 3)] := by
  decide +kernel

end TypeScriptRs.Printer
