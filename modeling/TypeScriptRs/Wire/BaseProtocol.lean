import TypeScriptRs.Lib.Decimal
import TypeScriptRs.Lib.Frames

/-! Messages with Content-Length headers, as language servers exchange them. -/
namespace TypeScriptRs.Wire.BaseProtocol
open Frames Decimal List

abbrev Stream := List UInt8

inductive ReadError where
  | eof (message : String)
  | invalidHeader (line : List UInt8)
  | invalidContentLength (message : String)
  | noContentLength
  deriving DecidableEq

def lineFeed : UInt8 := 10
def colon : UInt8 := 58
def crlf : List UInt8 := [13, 10]

/-- Up to the first line feed, which is taken too, or to the end. -/
def readUntil (delimiter : UInt8) : Stream → List UInt8 × Stream
  | [] => ([], [])
  | b :: rest => if b = delimiter then ([b], rest) else (b :: (readUntil delimiter rest).1, (readUntil delimiter rest).2)

def isAsciiWhitespace (b : UInt8) : Bool := b = 32 || b = 9 || b = 10 || b = 12 || b = 13

def trimAsciiSpace (value : List UInt8) : List UInt8 :=
  ((value.dropWhile isAsciiWhitespace).reverse.dropWhile isAsciiWhitespace).reverse

def toDigit (b : UInt8) : Option Nat := if 48 ≤ b ∧ b ≤ 57 then some (b.toNat - 48) else none

def invalidDigit : String := "invalid digit found in string"

/-- The digits of a positive number, one by one, as long as they fit. -/
def parsePositive : List UInt8 → Nat → Except String Int
  | [], n => .ok n
  | b :: rest, n =>
    match toDigit b with
    | none => .error invalidDigit
    | some d =>
      if n * 10 + d < 2 ^ 63 then parsePositive rest (n * 10 + d)
      else .error "number too large to fit in target type"

def parseNegative : List UInt8 → Nat → Except String Int
  | [], n => .ok (-n)
  | b :: rest, n =>
    match toDigit b with
    | none => .error invalidDigit
    | some d =>
      if n * 10 + d ≤ 2 ^ 63 then parseNegative rest (n * 10 + d)
      else .error "number too small to fit in target type"

/-- `i64::from_str`. Bytes that are no text are no digits either. -/
def parseI64 : List UInt8 → Except String Int
  | [] => .error "cannot parse integer from empty string"
  | 43 :: rest => if rest = [] then .error invalidDigit else parsePositive rest 0
  | 45 :: rest => if rest = [] then .error invalidDigit else parseNegative rest 0
  | digits => parsePositive digits 0

def headerField (contentLength : Int) (line : List UInt8) : Except ReadError Int :=
  if colon ∈ line then
    let key := line.takeWhile (· ≠ colon)
    let value := (line.dropWhile (· ≠ colon)).tail
    if key = bytes "Content-Length" then
      match parseI64 (trimAsciiSpace value) with
      | .error e => .error (.invalidContentLength ("parse error: " ++ e))
      | .ok n => if n < 0 then .error (.invalidContentLength ("negative value " ++ toString n)) else .ok n
    else .ok contentLength
  else .error (.invalidHeader line)

/-- Each turn takes a line off the stream, so the fuel is the length of the stream. -/
def readHeader : Nat → Int → Stream → Except ReadError (Int × Stream)
  | 0, _, _ => .error (.eof "EOF")
  | fuel + 1, contentLength, stream =>
    let (line, rest) := readUntil lineFeed stream
    if line.getLast? ≠ some lineFeed then .error (.eof "EOF")
    else if line = crlf then .ok (contentLength, rest)
    else
      match headerField contentLength line with
      | .error e => .error e
      | .ok contentLength => readHeader fuel contentLength rest

/-- How many bytes a single read returns, of those that are there and wanted. -/
structure Chunks where
  size : Nat → Nat → Nat
  positive : ∀ available wanted, 0 < available → 0 < wanted → 0 < size available wanted
  bounded : ∀ available wanted, size available wanted ≤ available ∧ size available wanted ≤ wanted

/-- The loop that fills the buffer, with what it has filled so far. -/
def readContent (chunks : Chunks) : Nat → Nat → List UInt8 → Stream → Except ReadError (List UInt8 × Stream)
  | 0, _, data, stream => .ok (data, stream)
  | fuel + 1, wanted, data, stream =>
    if wanted = 0 then .ok (data, stream)
    else if stream = [] then
      .error (.eof (if data = [] then "jsonrpc: read content: EOF" else "jsonrpc: read content: unexpected EOF"))
    else
      let n := chunks.size stream.length wanted
      readContent chunks fuel (wanted - n) (data ++ stream.take n) (stream.drop n)

def read (chunks : Chunks) (stream : Stream) : Except ReadError (List UInt8 × Stream) :=
  match readHeader (stream.length + 1) 0 stream with
  | .error e => .error e
  | .ok (contentLength, rest) =>
    if contentLength ≤ 0 then .error .noContentLength
    else readContent chunks contentLength.toNat contentLength.toNat [] rest

/-- A slice of memory, which is never longer than the largest signed number. -/
structure Payload where
  data : List UInt8
  fits : data.length < 2 ^ 63
  nonempty : data ≠ []

def decimal (n : Nat) : List UInt8 := (digitsOf n).map fun d => UInt8.ofNat (48 + d)

def write (payload : Payload) : List UInt8 :=
  bytes "Content-Length: " ++ decimal payload.data.length ++ crlf ++ crlf ++ payload.data

theorem readUntil_append {delimiter : UInt8} {body : List UInt8} (inside : delimiter ∉ body) (rest : Stream) :
    readUntil delimiter (body ++ delimiter :: rest) = (body ++ [delimiter], rest) := by
  induction body with
  | nil => simp [readUntil]
  | cons b body ih =>
    have other : b ≠ delimiter := fun same => inside (by simp [same])
    have later := ih fun member => inside (by simp [member])
    simp [readUntil, other, later]

theorem readUntil_split (delimiter : UInt8) (stream : Stream) :
    (readUntil delimiter stream).1 ++ (readUntil delimiter stream).2 = stream := by
  induction stream with
  | nil => rfl
  | cons b rest ih =>
    by_cases same : b = delimiter
    · simp [readUntil, same]
    · simp [readUntil, same, ih]

def IsLine (line : List UInt8) : Prop := ∃ body, line = body ++ [lineFeed] ∧ lineFeed ∉ body

theorem readUntil_isLine {stream : Stream} (last : (readUntil lineFeed stream).1.getLast? = some lineFeed) :
    IsLine (readUntil lineFeed stream).1 := by
  induction stream with
  | nil => cases last
  | cons b rest ih =>
    by_cases same : b = lineFeed
    · exact ⟨[], by simp [readUntil, same], by simp⟩
    simp only [readUntil, if_neg same] at last ⊢
    have later : (readUntil lineFeed rest).1.getLast? = some lineFeed := by
      cases tail : (readUntil lineFeed rest).1 with
      | nil =>
        rw [tail] at last
        exact absurd (Option.some.inj last) same
      | cons c more => simpa [tail] using last
    obtain ⟨body, line, inside⟩ := ih later
    refine ⟨b :: body, by rw [line]; rfl, ?_⟩
    simpa using ⟨Ne.symm same, inside⟩

/-- The header of a message: lines with fields, and an empty line. -/
structure Header (start : Int) (header : List UInt8) (contentLength : Int) : Prop where
  split : ∃ lines : List (List UInt8), header = lines.flatten ++ crlf ∧
    (∀ line ∈ lines, IsLine line ∧ line ≠ crlf) ∧ lines.foldlM headerField start = .ok contentLength

theorem readHeader_ok (fuel : Nat) : ∀ {start contentLength : Int} {stream rest : Stream},
    readHeader fuel start stream = .ok (contentLength, rest) →
    ∃ header, stream = header ++ rest ∧ Header start header contentLength := by
  induction fuel with
  | zero =>
    intro start contentLength stream rest ok
    cases ok
  | succ fuel ih =>
    intro start contentLength stream rest ok
    unfold readHeader at ok
    by_cases last : (readUntil lineFeed stream).1.getLast? = some lineFeed
    · simp only [last, ne_eq, not_true_eq_false, if_false] at ok
      by_cases done : (readUntil lineFeed stream).1 = crlf
      · rw [if_pos done] at ok
        cases ok
        refine ⟨crlf, ?_, ⟨[], rfl, by simp, rfl⟩⟩
        rw [← done]
        exact (readUntil_split lineFeed stream).symm
      rw [if_neg done] at ok
      cases field : headerField start (readUntil lineFeed stream).1 with
      | error e =>
        rw [field] at ok
        cases ok
      | ok next =>
        rw [field] at ok
        obtain ⟨header, split, ⟨lines, parts, each, run⟩⟩ := ih ok
        refine ⟨(readUntil lineFeed stream).1 ++ header, ?_, ⟨(readUntil lineFeed stream).1 :: lines, ?_, ?_, ?_⟩⟩
        · rw [append_assoc, ← split]
          exact (readUntil_split lineFeed stream).symm
        · simp [parts]
        · intro line member
          rcases mem_cons.mp member with rfl | later
          · exact ⟨readUntil_isLine last, done⟩
          · exact each line later
        · rw [foldlM_cons, field]
          exact run
    · simp only [last, ne_eq, not_false_eq_true, if_true] at ok
      cases ok

theorem readContent_eq (chunks : Chunks) (fuel : Nat) : ∀ (wanted : Nat) (data : List UInt8) (stream : Stream),
    wanted ≤ fuel → wanted ≤ stream.length →
    readContent chunks fuel wanted data stream = .ok (data ++ stream.take wanted, stream.drop wanted) := by
  induction fuel with
  | zero =>
    intro wanted data stream enough _
    cases Nat.le_zero.mp enough
    simp [readContent]
  | succ fuel ih =>
    intro wanted data stream enough there
    unfold readContent
    by_cases done : wanted = 0
    · simp [done]
    have some_ : stream ≠ [] := by
      rintro rfl
      exact done (Nat.le_zero.mp there)
    have first := chunks.positive stream.length wanted (length_pos_of_ne_nil some_) (by omega)
    have bound := chunks.bounded stream.length wanted
    rw [if_neg done, if_neg some_]
    rw [ih _ _ _ (by omega) (by rw [length_drop]; omega), drop_drop, append_assoc, take_drop,
      Nat.add_sub_cancel' bound.2]
    have join := take_append_drop (chunks.size stream.length wanted) (stream.take wanted)
    rw [take_take, Nat.min_eq_left bound.2] at join
    rw [join]

theorem readContent_ok (chunks : Chunks) (fuel : Nat) : ∀ {wanted : Nat} {data out : List UInt8} {stream rest : Stream},
    wanted ≤ fuel → readContent chunks fuel wanted data stream = .ok (out, rest) →
    ∃ more, out = data ++ more ∧ stream = more ++ rest ∧ more.length = wanted := by
  induction fuel with
  | zero =>
    intro wanted data out stream rest enough ok
    cases ok
    exact ⟨[], by simp, rfl, (Nat.le_zero.mp enough).symm⟩
  | succ fuel ih =>
    intro wanted data out stream rest enough ok
    unfold readContent at ok
    by_cases done : wanted = 0
    · rw [if_pos done] at ok
      cases ok
      exact ⟨[], by simp, rfl, done.symm⟩
    rw [if_neg done] at ok
    by_cases empty : stream = []
    · rw [if_pos empty] at ok
      cases ok
    rw [if_neg empty] at ok
    have first := chunks.positive stream.length wanted (length_pos_of_ne_nil empty) (by omega)
    have bound := chunks.bounded stream.length wanted
    obtain ⟨more, joined, split, length⟩ := ih (by omega) ok
    refine ⟨stream.take (chunks.size stream.length wanted) ++ more, ?_, ?_, ?_⟩
    · rw [joined, append_assoc]
    · rw [append_assoc, ← split, take_append_drop]
    · rw [length_append, length_take_of_le bound.1, length]
      omega

section
variable {chunks : Chunks}

def IsEof : ReadError → Prop
  | .eof _ => True
  | _ => False

theorem readUntil_more {stream : Stream} (last : (readUntil lineFeed stream).1.getLast? = some lineFeed) (more : Stream) :
    readUntil lineFeed (stream ++ more) = ((readUntil lineFeed stream).1, (readUntil lineFeed stream).2 ++ more) := by
  obtain ⟨body, line, inside⟩ := readUntil_isLine last
  have whole := congrArg (· ++ more) (readUntil_split lineFeed stream)
  have found := readUntil_append inside ((readUntil lineFeed stream).2 ++ more)
  rw [line] at whole ⊢
  rwa [append_cons, ← append_assoc, whole] at found

theorem readHeader_resumes (fuel : Nat) : ∀ (fuel' : Nat) (start : Int) (stream more : Stream),
    stream.length < fuel → (stream ++ more).length < fuel' →
    match readHeader fuel start stream with
    | .ok (n, rest) => readHeader fuel' start (stream ++ more) = .ok (n, rest ++ more)
    | .error e => IsEof e ∨ readHeader fuel' start (stream ++ more) = .error e := by
  induction fuel with
  | zero =>
    intro fuel' start stream more enough
    cases enough
  | succ fuel ih =>
    intro fuel' start stream more enough enough'
    obtain ⟨fuel', rfl⟩ := Nat.exists_eq_succ_of_ne_zero (Nat.ne_zero_of_lt enough')
    by_cases last : (readUntil lineFeed stream).1.getLast? = some lineFeed
    · have shorter := congrArg length (readUntil_split lineFeed stream)
      have nonempty : 0 < (readUntil lineFeed stream).1.length :=
        length_pos_of_ne_nil fun none => by
          rw [none] at last
          cases last
      rw [length_append] at enough' shorter
      simp only [readHeader, readUntil_more last, last, ne_eq, not_true_eq_false, if_false]
      by_cases done : (readUntil lineFeed stream).1 = crlf
      · simp only [if_pos done]
      simp only [if_neg done]
      cases headerField start (readUntil lineFeed stream).1 with
      | error e => exact .inr rfl
      | ok next => exact ih fuel' next _ more (by omega) (by rw [length_append]; omega)
    · simp only [readHeader, last, ne_eq, not_false_eq_true, if_true]
      exact .inl trivial

theorem readContent_short (fuel : Nat) : ∀ {wanted : Nat} {data : List UInt8} {stream : Stream},
    stream.length < wanted → wanted ≤ fuel → ∃ text, readContent chunks fuel wanted data stream = .error (.eof text) := by
  induction fuel with
  | zero =>
    intro wanted data stream short enough
    omega
  | succ fuel ih =>
    intro wanted data stream short enough
    unfold readContent
    rw [if_neg (by omega)]
    by_cases empty : stream = []
    · exact ⟨_, if_pos empty⟩
    rw [if_neg empty]
    have first := chunks.positive stream.length wanted (length_pos_of_ne_nil empty) (by omega)
    have bound := chunks.bounded stream.length wanted
    exact ih (by rw [length_drop]; omega) (by omega)

theorem read_resumes : Resumes IsEof (read chunks) := by
  intro stream more
  have header := readHeader_resumes (stream.length + 1) ((stream ++ more).length + 1) 0 stream more (Nat.lt_succ_self _)
    (Nat.lt_succ_self _)
  unfold read
  cases found : readHeader (stream.length + 1) 0 stream with
  | error e =>
    rw [found] at header
    exact header.imp_right fun same => by rw [same]
  | ok result =>
    obtain ⟨n, rest⟩ := result
    rw [found] at header
    rw [header]
    by_cases none : n ≤ 0
    · simp only [if_pos none]
      exact .inr trivial
    simp only [if_neg none]
    by_cases whole : n.toNat ≤ rest.length
    · rw [readContent_eq chunks _ _ _ _ le_rfl whole, readContent_eq chunks _ _ _ _ le_rfl (by rw [length_append]; omega)]
      dsimp only
      rw [take_append_of_le_length whole, drop_append_of_le_length whole]
    · obtain ⟨text, short⟩ : ∃ text, readContent chunks n.toNat n.toNat [] rest = .error (.eof text) :=
        readContent_short _ (by omega) le_rfl
      rw [short]
      exact .inl trivial
end

variable {d n : Nat}

def digitByte (d : Nat) : UInt8 := UInt8.ofNat (48 + d)

theorem toDigit_digitByte (small : d < 10) : toDigit (digitByte d) = some d := by
  have all : ∀ d < 10, toDigit (digitByte d) = some d := by decide
  exact all d small

theorem digitByte_plain (small : d < 10) :
    isAsciiWhitespace (digitByte d) = false ∧ digitByte d ≠ lineFeed ∧ digitByte d ≠ 43 ∧ digitByte d ≠ 45 := by
  have all : ∀ d < 10, isAsciiWhitespace (digitByte d) = false ∧ digitByte d ≠ lineFeed ∧ digitByte d ≠ 43 ∧
      digitByte d ≠ 45 := by decide
  exact all d small

theorem parsePositive_digits (digits : List Nat) (small : ∀ d ∈ digits, d < 10) : ∀ n,
    digits.foldl (fun n d => n * 10 + d) n < 2 ^ 63 →
    parsePositive (digits.map digitByte) n = .ok (digits.foldl (fun n d => n * 10 + d) n : Nat) := by
  induction digits with
  | nil =>
    intro n _
    rfl
  | cons d digits ih =>
    intro n fits
    have grows : ∀ (ds : List Nat) (k : Nat), k ≤ ds.foldl (fun n d => n * 10 + d) k := by
      intro ds
      induction ds with
      | nil => exact fun k => le_rfl
      | cons e ds ih => exact fun k => le_trans (by omega) (ih (k * 10 + e))
    have now : n * 10 + d < 2 ^ 63 := lt_of_le_of_lt (grows digits _) fits
    simp only [map_cons, parsePositive, toDigit_digitByte (small d (by simp)), if_pos now, foldl_cons]
    exact ih (fun e he => small e (by simp [he])) _ fits

theorem parseI64_decimal (fits : n < 2 ^ 63) : parseI64 (decimal n) = .ok n := by
  obtain ⟨d, rest, split⟩ := exists_cons_of_ne_nil (digitsOf_ne_nil n)
  have small : ∀ d ∈ digitsOf n, d < 10 := fun d member => digitsOf_lt member
  have value : valueOf (digitsOf n) = n := valueOf_digitsOf n
  have run := parsePositive_digits (digitsOf n) small 0 (by rw [← valueOf, value]; exact fits)
  rw [← valueOf, value] at run
  have plain := digitByte_plain (small d (by simp [split]))
  have start : decimal n = digitByte d :: rest.map digitByte := by
    show (digitsOf n).map digitByte = _
    rw [split]
    rfl
  rw [start]
  unfold parseI64
  split
  · rename_i none
    cases none
  · rename_i sign
    exact absurd (List.cons.inj sign).1 plain.2.2.1
  · rename_i sign
    exact absurd (List.cons.inj sign).1 plain.2.2.2
  · rw [← start]
    exact run

theorem trimAsciiSpace_decimal (n : Nat) : trimAsciiSpace (32 :: decimal n ++ crlf) = decimal n := by
  have plain : ∀ b ∈ decimal n, isAsciiWhitespace b = false := by
    intro b member
    obtain ⟨d, listed, rfl⟩ := mem_map.mp member
    exact (digitByte_plain (digitsOf_lt listed)).1
  have front : (32 :: decimal n ++ crlf).dropWhile isAsciiWhitespace = decimal n ++ crlf := by
    obtain ⟨b, rest, split⟩ := exists_cons_of_ne_nil
      (by simpa [decimal] using digitsOf_ne_nil n : decimal n ≠ [])
    have first := plain b (by simp [split])
    simp [split, first, (by decide : isAsciiWhitespace 32 = true)]
  have back : (decimal n ++ crlf).reverse.dropWhile isAsciiWhitespace = (decimal n).reverse := by
    obtain ⟨b, rest, split⟩ := exists_cons_of_ne_nil
      (by simpa [decimal] using digitsOf_ne_nil n : (decimal n).reverse ≠ [])
    have last := plain b (mem_reverse.mp (by simp [split]))
    simp [split, last, crlf, (by decide : isAsciiWhitespace 10 = true), (by decide : isAsciiWhitespace 13 = true)]
  unfold trimAsciiSpace
  rw [front, back, reverse_reverse]

def headerText : List UInt8 := [67, 111, 110, 116, 101, 110, 116, 45, 76, 101, 110, 103, 116, 104]

theorem bytes_header : bytes "Content-Length: " = headerText ++ [58, 32] ∧ bytes "Content-Length" = headerText := by
  decide

theorem headerField_written (start : Int) (fits : n < 2 ^ 63) :
    headerField start (bytes "Content-Length: " ++ decimal n ++ crlf) = .ok n := by
  have key : (bytes "Content-Length: " ++ decimal n ++ crlf).takeWhile (· ≠ colon) = bytes "Content-Length" := by
    simp [bytes_header.1, bytes_header.2, headerText, colon]
  have value : ((bytes "Content-Length: " ++ decimal n ++ crlf).dropWhile (· ≠ colon)).tail = 32 :: decimal n ++ crlf := by
    simp [bytes_header.1, headerText, colon]
  have there : colon ∈ bytes "Content-Length: " ++ decimal n ++ crlf := by simp [bytes_header.1, colon]
  have above : ¬ (n : Int) < 0 := by omega
  unfold headerField
  simp only [if_pos there, key, value, if_true, trimAsciiSpace_decimal, parseI64_decimal fits, if_neg above]

theorem readHeader_written (fits : n < 2 ^ 63) (rest : Stream) (fuel : Nat) :
    readHeader (fuel + 2) 0 (bytes "Content-Length: " ++ decimal n ++ crlf ++ crlf ++ rest) = .ok ((n : Int), rest) := by
  have inside : lineFeed ∉ bytes "Content-Length: " ++ decimal n ++ [13] := by
    have digits : lineFeed ∉ decimal n := by
      intro member
      obtain ⟨d, listed, same⟩ := mem_map.mp member
      exact (digitByte_plain (digitsOf_lt listed)).2.1 same
    simp [bytes_header.1, headerText, lineFeed] at digits ⊢
    exact digits
  have first : readUntil lineFeed (bytes "Content-Length: " ++ decimal n ++ crlf ++ crlf ++ rest) =
      (bytes "Content-Length: " ++ decimal n ++ crlf, crlf ++ rest) := by
    have line := readUntil_append inside (crlf ++ rest)
    simpa [crlf, lineFeed] using line
  have long : bytes "Content-Length: " ++ decimal n ++ crlf ≠ crlf := by
    simp [bytes_header.1, headerText, crlf]
  have last : (bytes "Content-Length: " ++ decimal n ++ crlf).getLast? = some lineFeed := by
    simp [crlf, lineFeed]
  unfold readHeader
  simp only [first, last, ne_eq, not_true_eq_false, if_false, if_neg long, headerField_written 0 fits]
  rfl

theorem read_write (chunks : Chunks) (payload : Payload) (rest : Stream) :
    read chunks (write payload ++ rest) = .ok (payload.data, rest) := by
  have long : ∃ fuel, (write payload ++ rest).length + 1 = fuel + 2 := by
    refine ⟨(write payload ++ rest).length - 1, ?_⟩
    have some_ : 0 < (write payload ++ rest).length := by simp [write, crlf]
    omega
  obtain ⟨fuel, enough⟩ := long
  have header := readHeader_written payload.fits (payload.data ++ rest) fuel
  have split : write payload ++ rest = bytes "Content-Length: " ++ decimal payload.data.length ++ crlf ++ crlf ++
      (payload.data ++ rest) := by simp [write]
  have positive : ¬ ((payload.data.length : Int) ≤ 0) := by
    have := length_pos_of_ne_nil payload.nonempty
    omega
  unfold read
  rw [enough, split, header]
  simp only [if_neg positive, Int.toNat_natCast]
  rw [readContent_eq chunks _ _ _ _ le_rfl (by simp)]
  simp

/-- Written messages are read back in order, and every message that is read off a stream
is the Content-Length bytes after its header. -/
theorem baseProtocol_framing (chunks : Chunks) :
    (∀ (payloads : List Payload) (fuel : Nat), payloads.length < fuel →
      readAll (read chunks) fuel (payloads.flatMap write) = (payloads.map Payload.data, some (.eof "EOF"))) ∧
    (∀ (stream data rest : Stream), read chunks stream = .ok (data, rest) →
      ∃ header, Header 0 header data.length ∧ data ≠ [] ∧ stream = header ++ data ++ rest) := by
  constructor
  · intro payloads fuel enough
    have final : read chunks [] = .error (.eof "EOF") := rfl
    exact readAll_flatMap Payload.data final payloads (fun p _ rest => read_write chunks p rest) fuel enough
  intro stream data rest ok
  unfold read at ok
  cases first : readHeader (stream.length + 1) 0 stream with
  | error e =>
    rw [first] at ok
    cases ok
  | ok result =>
    obtain ⟨contentLength, body⟩ := result
    rw [first] at ok
    obtain ⟨header, split, parsed⟩ := readHeader_ok _ first
    by_cases none : contentLength ≤ 0
    · simp only [if_pos none] at ok
      cases ok
    simp only [if_neg none] at ok
    obtain ⟨more, joined, rest', length⟩ := readContent_ok chunks _ le_rfl ok
    subst joined
    have size : contentLength = data.length := by omega
    refine ⟨header, size ▸ parsed, ?_, ?_⟩
    · rintro rfl
      exact none (by rw [size]; rfl)
    · rw [split, rest', append_assoc]

/-- Bytes that arrive later change no message and no failure but an early end; of written messages that are cut off
anywhere, exactly those before the cut are read, however few bytes each read returns. -/
theorem read_cut (chunks : Chunks) : Resumes IsEof (read chunks) ∧
    ∀ (payloads : List Payload) (cut fuel : Nat), payloads.length < fuel →
      ∃ n text, readAll (read chunks) fuel ((payloads.flatMap write).take cut) =
          ((payloads.take n).map Payload.data, some (.eof text)) ∧
        ((payloads.take n).flatMap write).length ≤ cut ∧
        ∀ p ∈ payloads[n]?, cut < ((payloads.take n).flatMap write).length + (write p).length := by
  refine ⟨read_resumes, fun payloads cut fuel enough => ?_⟩
  have final : read chunks [] = .error (.eof "EOF") := rfl
  obtain ⟨n, e, all, ends, before, after⟩ := readAll_cut Payload.data read_resumes final trivial payloads
    (fun p _ rest => read_write chunks p rest) cut fuel enough
  cases e with
  | eof text => exact ⟨n, text, all, before, after⟩
  | invalidHeader | invalidContentLength | noContentLength => cases ends

def byteByByte : Chunks where
  size available wanted := min 1 (min available wanted)
  positive available wanted _ _ := by omega
  bounded available wanted := by omega

def headerPayload : Payload := ⟨bytes "Content-Length: 3\r\n\r\n", by decide, by decide⟩

theorem baseProtocol_framing_headerPayload :
    readAll (read byteByByte) 3 (write headerPayload ++ write headerPayload) =
      ([headerPayload.data, headerPayload.data], some (.eof "EOF")) := by
  have framed := (baseProtocol_framing byteByByte).1 [headerPayload, headerPayload] 3 (by decide)
  simpa using framed

end TypeScriptRs.Wire.BaseProtocol
