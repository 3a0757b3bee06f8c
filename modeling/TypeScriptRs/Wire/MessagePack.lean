import TypeScriptRs.Lib.Frames

/-! Tuples of a message type, a method and a payload in the binary protocol of the API. -/
namespace TypeScriptRs.Wire
open Frames List

abbrev MessageType := UInt8

namespace MessageType

def request : MessageType := 1
def callResponse : MessageType := 2
def callError : MessageType := 3
def response : MessageType := 4
def error : MessageType := 5
def call : MessageType := 6

def isValid (t : MessageType) : Bool := request ≤ t && t ≤ call

end MessageType

inductive ReadError where
  | unexpectedEof
  | invalidRequest (message : String)
  /-- The method is not text. -/
  | invalidMethod (bytes : List UInt8)
  /-- The payload of a message is not a value. -/
  | invalidPayload (payload : List UInt8)
  | unexpectedMessageType (t : MessageType)
  deriving DecidableEq

abbrev Stream := List UInt8
abbrev Read (α : Type) := Stream → Except ReadError (α × Stream)

def msgpackFixedArray3 : UInt8 := 0x93
def msgpackBin8 : UInt8 := 0xC4
def msgpackBin16 : UInt8 := 0xC5
def msgpackBin32 : UInt8 := 0xC6
def msgpackU8 : UInt8 := 0xCC

def hexDigit (n : Nat) : Char := if n < 10 then Char.ofNat (48 + n) else Char.ofNat (87 + n)

def hex (b : UInt8) : String := String.ofList [hexDigit (b.toNat / 16), hexDigit (b.toNat % 16)]

def invalidRequest (message : String) : ReadError := .invalidRequest ("api: invalid request: " ++ message)

def readByte : Read UInt8
  | [] => .error .unexpectedEof
  | b :: rest => .ok (b, rest)

def readExact (n : Nat) : Read (List UInt8) := take .unexpectedEof n

def readSize (stream : Stream) : Except ReadError (Nat × Stream) := do
  let (t, stream) ← readByte stream
  if t = msgpackBin8 then
    let (b, stream) ← readByte stream
    pure (b.toNat, stream)
  else if t = msgpackBin16 then
    let (buf, stream) ← readExact 2 stream
    pure (ofBeBytes buf, stream)
  else if t = msgpackBin32 then
    let (buf, stream) ← readExact 4 stream
    pure (ofBeBytes buf, stream)
  else throw (invalidRequest ("expected binary data (0xc4-0xc6), received: 0x" ++ hex t))

def readBin (stream : Stream) : Except ReadError (List UInt8 × Stream) := do
  let (size, stream) ← readSize stream
  readExact size stream

def fromUtf8 (method : List UInt8) : Except ReadError String :=
  match String.fromUTF8? ⟨method.toArray⟩ with
  | some s => .ok s
  | none => .error (.invalidMethod method)

structure Tuple where
  msgType : MessageType
  method : String
  payload : List UInt8
  deriving DecidableEq

/-- A small number is its own byte; a marker announces any other. -/
def readType (stream : Stream) : Except ReadError (MessageType × Stream) := do
  let (t, stream) ← readByte stream
  let (rawType, stream) ←
    if t ≤ 0x7F then pure (t, stream)
    else if t = msgpackU8 then readByte stream
    else throw (invalidRequest ("expected positive fixint or uint8 marker, received: 0x" ++ hex t))
  if MessageType.isValid rawType then pure (rawType, stream)
  else throw (invalidRequest ("unknown message type: " ++ toString rawType.toNat))

def readTuple : Read Tuple := fun stream => do
  let (t, stream) ← readByte stream
  if t ≠ msgpackFixedArray3 then
    throw (invalidRequest ("expected fixed 3-element array (0x93), received: 0x" ++ hex t))
  else
    let (msgType, stream) ← readType stream
    let (methodBytes, stream) ← readBin stream
    let method ← fromUtf8 methodBytes
    let (payload, stream) ← readBin stream
    pure (⟨msgType, method, payload⟩, stream)

def writeBin (data : List UInt8) : List UInt8 :=
  if data.length < 256 then [msgpackBin8, UInt8.ofNat data.length] ++ data
  else if data.length < 1 <<< 16 then [msgpackBin16] ++ beBytes 2 data.length ++ data
  else [msgpackBin32] ++ beBytes 4 data.length ++ data

def writeTuple (t : Tuple) : List UInt8 :=
  [msgpackFixedArray3] ++ [t.msgType] ++ writeBin (bytes t.method) ++ writeBin t.payload

theorem fromUtf8_bytes (s : String) : fromUtf8 (bytes s) = .ok s := by
  have valid : (⟨(bytes s).toArray⟩ : ByteArray) = s.toByteArray := by simp [bytes]
  unfold fromUtf8
  rw [valid]
  simp [String.fromUTF8?, String.fromUTF8, s.isValidUTF8]

theorem readExact_append (data rest : List UInt8) : readExact data.length (data ++ rest) = .ok (data, rest) :=
  take_append _ data rest

theorem readExact_beBytes (k n : Nat) (rest : List UInt8) : readExact k (beBytes k n ++ rest) = .ok (beBytes k n, rest) := by
  have whole := readExact_append (beBytes k n) rest
  rwa [length_beBytes] at whole

theorem readSize_writeBin (data rest : List UInt8) :
    readSize (writeBin data ++ rest) = .ok (data.length % 2 ^ 32, data ++ rest) := by
  unfold writeBin readSize
  split
  · rename_i small
    have size : (UInt8.ofNat data.length).toNat = data.length % 2 ^ 32 := by
      rw [UInt8.toNat_ofNat', Nat.mod_eq_of_lt small, Nat.mod_eq_of_lt (by omega)]
    simp [readByte, bind, Except.bind, pure, Except.pure, size]
  split
  · rename_i medium
    have less : data.length < 256 ^ 2 := medium
    have size : ofBeBytes (beBytes 2 data.length) = data.length % 2 ^ 32 := by
      rw [ofBeBytes_beBytes, Nat.mod_eq_of_lt less, Nat.mod_eq_of_lt (by omega)]
    simp [readByte, bind, Except.bind, pure, Except.pure, readExact_beBytes, size, msgpackBin16, msgpackBin8]
  · have size : ofBeBytes (beBytes 4 data.length) = data.length % 2 ^ 32 := ofBeBytes_beBytes 4 _
    simp [readByte, bind, Except.bind, pure, Except.pure, readExact_beBytes, size, msgpackBin32, msgpackBin16,
      msgpackBin8]

theorem readBin_writeBin (data rest : List UInt8) :
    readBin (writeBin data ++ rest) = readExact (data.length % 2 ^ 32) (data ++ rest) := by
  unfold readBin
  rw [readSize_writeBin]
  rfl

theorem readBin_short (data rest : List UInt8) (short : data.length < 2 ^ 32) :
    readBin (writeBin data ++ rest) = .ok (data, rest) := by
  rw [readBin_writeBin, Nat.mod_eq_of_lt short, readExact_append]

theorem readType_valid {t : MessageType} (valid : MessageType.isValid t = true) (rest : Stream) :
    readType (t :: rest) = .ok (t, rest) := by
  have small : t ≤ 0x7F := by
    have above := of_decide_eq_true (Bool.and_eq_true_iff.mp valid).2
    exact UInt8.le_trans above (by decide : MessageType.call ≤ 0x7F)
  simp [readType, readByte, bind, Except.bind, pure, Except.pure, small, valid]

theorem readTuple_writeTuple (t : Tuple) (valid : MessageType.isValid t.msgType = true) (rest : Stream) :
    readTuple (writeTuple t ++ rest) = (do
      let (methodBytes, stream) ← readExact ((bytes t.method).length % 2 ^ 32)
        (bytes t.method ++ (writeBin t.payload ++ rest))
      let method ← fromUtf8 methodBytes
      let (payload, stream) ← readBin stream
      pure (⟨t.msgType, method, payload⟩, stream)) := by
  unfold readTuple writeTuple
  simp only [append_assoc, cons_append, nil_append]
  rw [← readBin_writeBin]
  simp only [readByte, bind, Except.bind, ne_eq, not_true_eq_false, if_false, readType_valid valid]

theorem readTuple_short {t : Tuple} (valid : MessageType.isValid t.msgType = true)
    (method : (bytes t.method).length < 2 ^ 32) (payload : t.payload.length < 2 ^ 32) (rest : Stream) :
    readTuple (writeTuple t ++ rest) = .ok (t, rest) := by
  rw [readTuple_writeTuple t valid, Nat.mod_eq_of_lt method, readExact_append]
  simp only [bind, Except.bind, fromUtf8_bytes, readBin_short t.payload rest payload]
  rfl

abbrev IsEof (e : ReadError) : Prop := e = .unexpectedEof

theorem resumes_byte : Resumes IsEof readByte := by
  intro stream more
  cases stream with
  | nil => exact .inl rfl
  | cons b rest => rfl

theorem resumes_exact (n : Nat) : Resumes IsEof (readExact n) := resumes_take (by rfl) n

theorem resumes_bin : Resumes IsEof readBin := by
  have size : Resumes IsEof readSize :=
    resumes_byte.bind fun t => .ite (resumes_byte.bind fun b => resumes_pure b.toNat) <|
      .ite ((resumes_exact 2).bind fun buf => resumes_pure (ofBeBytes buf)) <|
        .ite ((resumes_exact 4).bind fun buf => resumes_pure (ofBeBytes buf)) (resumes_error _)
  exact size.bind resumes_exact

theorem resumes_type : Resumes IsEof readType := by
  have checked (t : MessageType) : Resumes IsEof fun stream : Stream =>
      if MessageType.isValid t then .ok (t, stream)
      else .error (invalidRequest ("unknown message type: " ++ toString t.toNat)) := .ite (resumes_pure t) (resumes_error _)
  exact resumes_byte.bind fun t => .ite ((resumes_pure t).bind checked) <| .ite (resumes_byte.bind checked) (resumes_error _)

theorem resumes_tuple : Resumes IsEof readTuple := by
  refine resumes_byte.bind fun t => .ite (resumes_error _) <| resumes_type.bind fun msgType => resumes_bin.bind fun method => ?_
  dsimp only
  cases text : fromUtf8 method with
  | error e => exact resumes_error e
  | ok method => exact resumes_bin.bind fun payload => resumes_pure (⟨msgType, method, payload⟩ : Tuple)

/-- Bytes that arrive later change no tuple and no failure but the end of the stream; of written tuples that are cut off
anywhere, exactly those before the cut are read. -/
theorem readTuple_cut : Resumes IsEof readTuple ∧
    ∀ tuples : List Tuple, (∀ t ∈ tuples, MessageType.isValid t.msgType = true ∧ (bytes t.method).length < 2 ^ 32 ∧
      t.payload.length < 2 ^ 32) → ∀ cut fuel, tuples.length < fuel →
      ∃ n, readAll readTuple fuel ((tuples.flatMap writeTuple).take cut) = (tuples.take n, some .unexpectedEof) ∧
        ((tuples.take n).flatMap writeTuple).length ≤ cut ∧
        ∀ t ∈ tuples[n]?, cut < ((tuples.take n).flatMap writeTuple).length + (writeTuple t).length := by
  refine ⟨resumes_tuple, fun tuples fits cut fuel enough => ?_⟩
  have each (t : Tuple) (member : t ∈ tuples) (rest : Stream) : readTuple (writeTuple t ++ rest) = .ok (id t, rest) :=
    readTuple_short (fits t member).1 (fits t member).2.1 (fits t member).2.2 rest
  obtain ⟨n, e, all, rfl, before, after⟩ := readAll_cut id resumes_tuple rfl rfl tuples each cut fuel enough
  rw [map_id] at all
  exact ⟨n, all, before, after⟩

def ping : Tuple := ⟨.request, "ping", bytes "null"⟩

theorem readTuple_cut_ping : ∃ n, readAll readTuple 3 (([ping, ping].flatMap writeTuple).take 20) =
    ([ping, ping].take n, some .unexpectedEof) :=
  (readTuple_cut.2 [ping, ping] (by decide +kernel) 20 3 (by decide)).imp fun _ cut => cut.1

theorem bytes_of_fromUtf8 {data : List UInt8} {s : String} (ok : fromUtf8 data = .ok s) : bytes s = data := by
  unfold fromUtf8 String.fromUTF8? at ok
  by_cases valid : (⟨data.toArray⟩ : ByteArray).IsValidUTF8
  · rw [dif_pos valid] at ok
    cases ok
    simp [bytes, String.fromUTF8]
  · rw [dif_neg valid] at ok
    cases ok

theorem method_short_of_readTuple {t t' : Tuple} {rest rest' : Stream}
    (valid : MessageType.isValid t.msgType = true) (ok : readTuple (writeTuple t ++ rest) = .ok (t', rest'))
    (same : t'.method = t.method) : (bytes t.method).length < 2 ^ 32 := by
  rw [readTuple_writeTuple t valid] at ok
  cases first : readExact ((bytes t.method).length % 2 ^ 32) (bytes t.method ++ (writeBin t.payload ++ rest)) with
  | error e =>
    rw [first] at ok
    cases ok
  | ok result =>
    obtain ⟨methodBytes, stream⟩ := result
    rw [first] at ok
    obtain ⟨-, size⟩ := take_ok first
    cases text : fromUtf8 methodBytes with
    | error e =>
      simp only [bind, Except.bind, text] at ok
      cases ok
    | ok method =>
      simp only [bind, Except.bind, text] at ok
      cases second : readBin stream with
      | error e =>
        rw [second] at ok
        cases ok
      | ok result =>
        rw [second] at ok
        cases ok
        have whole : (bytes t.method).length = (bytes t.method).length % 2 ^ 32 := by
          rw [← size, ← bytes_of_fromUtf8 text]
          exact congrArg (fun s => (bytes s).length) same.symm
        rw [whole]
        exact Nat.mod_lt _ (by decide)

structure Id where
  str : String
  int : Int
  deriving DecidableEq

namespace Id

def newString (str : String) : Id := ⟨str, 0⟩

def toText (id : Id) : String := if id.str ≠ "" then id.str else toString id.int

end Id

inductive JsonValue where
  | unsigned (n : Nat)
  | array (items : List JsonValue)
  | object (members : List (String × JsonValue))
  | other (text : String)

def JsonValue.asU64 : JsonValue → Option Nat
  | .unsigned n => some n
  | _ => none

def rawBinaryMarker : String := "__ts_raw_binary"

/-- The bytes that a value stands for when it is marked as raw binary data. -/
def rawBinaryPayload : JsonValue → Option (List UInt8)
  | .object [(marker, .array items)] =>
    if marker = rawBinaryMarker then
      items.mapM fun item => item.asU64.bind fun byte => if byte > 255 then none else some (UInt8.ofNat byte)
    else none
  | _ => none

structure Message where
  id : Option Id := none
  method : String := ""
  params : Option JsonValue := none
  result : Option JsonValue := none
  /-- The code and the text of an error. -/
  error : Option (Int × String) := none

def codeInternalError : Int := -32603

/-- The JSON library and the reading of text that may be invalid. -/
structure Codec where
  unmarshal : List UInt8 → Option JsonValue
  marshal : JsonValue → Except String (List UInt8)
  fromUtf8Lossy : List UInt8 → String

section
variable (codec : Codec)

def jsonValueFromPayload (payload : List UInt8) : Except ReadError JsonValue :=
  match codec.unmarshal payload with
  | some value => .ok value
  | none => .error (.invalidPayload payload)

def toMessage (t : Tuple) : Except ReadError Message :=
  if t.msgType = .request then do
    let params ← jsonValueFromPayload codec t.payload
    pure { id := some (.newString t.method), method := t.method, params := some params }
  else if t.msgType = .callResponse then do
    let result ← jsonValueFromPayload codec t.payload
    pure { id := some (.newString t.method), result := some result }
  else if t.msgType = .callError then
    pure { id := some (.newString t.method), error := some (codeInternalError, codec.fromUtf8Lossy t.payload) }
  else throw (.unexpectedMessageType t.msgType)

def readMessage : Read Message := fun stream => do
  let (t, stream) ← readTuple stream
  let message ← toMessage codec t
  pure (message, stream)

def methodOf (id : Option Id) : String := (id.map Id.toText).getD ""

def writeRequest (method : String) (params : JsonValue) : Except String (List UInt8) := do
  let payload ← codec.marshal params
  pure (writeTuple ⟨.call, method, payload⟩)

def writeNotification (method : String) (params : JsonValue) : Except String (List UInt8) :=
  writeRequest codec method params

def writeResponse (id : Option Id) (result : JsonValue) : Except String (List UInt8) := do
  let payload ← match rawBinaryPayload result with
    | some payload => pure payload
    | none => codec.marshal result
  pure (writeTuple ⟨.response, methodOf id, payload⟩)

def writeError (id : Option Id) (message : String) : List UInt8 :=
  writeTuple ⟨.error, methodOf id, bytes message⟩
end

variable {codec : Codec}

theorem id_of_request {t : Tuple} {message : Message} (request : t.msgType = .request)
    (ok : toMessage codec t = .ok message) : message.id = some (.newString t.method) := by
  unfold toMessage at ok
  rw [if_pos request] at ok
  cases value : jsonValueFromPayload codec t.payload with
  | error e =>
    rw [value] at ok
    cases ok
  | ok params =>
    rw [value] at ok
    cases ok
    rfl

theorem methodOf_newString (method : String) : methodOf (some (.newString method)) = if method = "" then "0" else method := by
  by_cases empty : method = ""
  · simp [methodOf, Id.toText, Id.newString, empty]
    rfl
  · simp [methodOf, Id.toText, Id.newString, empty]

theorem writeTuple_empty_ne (t t' : MessageType) (payload payload' : List UInt8) :
    writeTuple ⟨t, "0", payload⟩ ≠ writeTuple ⟨t', "", payload'⟩ := by
  intro same
  have zero : writeBin (bytes "0") = [msgpackBin8, 1, 48] := by decide
  have none : writeBin (bytes "") = [msgpackBin8, 0] := by decide
  simp only [writeTuple, zero, none, cons_append, nil_append, List.cons.injEq] at same
  exact absurd same.2.2.2.1 (by decide)

theorem answer_carries_iff {t : Tuple} {message : Message} (request : t.msgType = .request)
    (ok : toMessage codec t = .ok message) (answer : MessageType) (payload : List UInt8) :
    (∃ payload', writeTuple ⟨answer, methodOf message.id, payload⟩ = writeTuple ⟨answer, t.method, payload'⟩) ↔
      t.method ≠ "" := by
  rw [id_of_request request ok, methodOf_newString]
  constructor
  · rintro ⟨payload', same⟩ empty
    rw [if_pos empty, empty] at same
    exact writeTuple_empty_ne _ _ _ _ same
  · intro named
    exact ⟨payload, by rw [if_neg named]⟩

theorem readAll_iff (tuples : List Tuple)
    (fits : ∀ t ∈ tuples, MessageType.isValid t.msgType = true ∧ t.payload.length < 2 ^ 32) :
    (∀ fuel, tuples.length < fuel →
      readAll readTuple fuel (tuples.flatMap writeTuple) = (tuples, some .unexpectedEof)) ↔
    ∀ t ∈ tuples, (bytes t.method).length < 2 ^ 32 := by
  constructor
  · intro round
    induction tuples with
    | nil =>
      intro t member
      cases member
    | cons t tuples ih =>
      have valid := (fits t (by simp)).1
      obtain ⟨rest, first⟩ := read_of_readAll (round (tuples.length + 2) (by simp))
      have short : (bytes t.method).length < 2 ^ 32 := method_short_of_readTuple valid first rfl
      have later : ∀ fuel, tuples.length < fuel →
          readAll readTuple fuel (tuples.flatMap writeTuple) = (tuples, some .unexpectedEof) := by
        intro fuel enough
        have next := round (fuel + 1) (by simpa using enough)
        rw [flatMap_cons, readAll, readTuple_short valid short (fits t (by simp)).2] at next
        obtain ⟨messages, stop⟩ := Prod.ext_iff.mp next
        exact Prod.ext (List.cons.inj messages).2 stop
      intro u member
      rcases mem_cons.mp member with rfl | rest
      · exact short
      · exact ih (fun u hu => fits u (by simp [hu])) later u rest
  · intro short
    have final : readTuple [] = .error .unexpectedEof := rfl
    have all := readAll_flatMap id final tuples fun t member rest =>
      readTuple_short (fits t member).1 (short t member) (fits t member).2 rest
    rwa [map_id] at all

theorem writeResponse_ok {id : Option Id} {result : JsonValue} {answer : List UInt8}
    (ok : writeResponse codec id result = .ok answer) :
    ∃ payload, answer = writeTuple ⟨.response, methodOf id, payload⟩ := by
  unfold writeResponse at ok
  cases raw : rawBinaryPayload result with
  | some payload =>
    rw [raw] at ok
    cases ok
    exact ⟨payload, rfl⟩
  | none =>
    rw [raw] at ok
    cases text : codec.marshal result with
    | error e =>
      simp only [text] at ok
      cases ok
    | ok payload =>
      simp only [text] at ok
      cases ok
      exact ⟨payload, rfl⟩

/-- Tuples survive the wire when their methods fit, and an answer carries the method of
its request when that is not empty. -/
theorem messagePack_framing (codec : Codec) :
    (∀ tuples : List Tuple, (∀ t ∈ tuples, MessageType.isValid t.msgType = true ∧ t.payload.length < 2 ^ 32) →
      ((∀ fuel, tuples.length < fuel →
        readAll readTuple fuel (tuples.flatMap writeTuple) = (tuples, some .unexpectedEof)) ↔
      ∀ t ∈ tuples, (bytes t.method).length < 2 ^ 32)) ∧
    (∀ (stream rest : Stream) (t : Tuple) (message : Message), readTuple stream = .ok (t, rest) →
      t.msgType = .request → readMessage codec stream = .ok (message, rest) →
      ∀ result answer, writeResponse codec message.id result = .ok answer →
        ((∃ payload, answer = writeTuple ⟨.response, t.method, payload⟩) ↔ t.method ≠ "")) := by
  constructor
  · exact readAll_iff
  intro stream rest t message first request read result answer written
  have converted : toMessage codec t = .ok message := by
    simp only [readMessage, first, bind, Except.bind] at read
    cases value : toMessage codec t with
    | error e =>
      rw [value] at read
      cases read
    | ok m =>
      rw [value] at read
      cases read
      rfl
  obtain ⟨payload, rfl⟩ := writeResponse_ok written
  exact answer_carries_iff request converted .response payload

def nullCodec : Codec where
  unmarshal payload := if payload = bytes "null" then some (.other "null") else none
  marshal _ := .ok (bytes "null")
  fromUtf8Lossy _ := ""

theorem messagePack_framing_ping : ∃ payload,
    writeResponse nullCodec (some (.newString "ping")) (.other "null") =
      .ok (writeTuple ⟨.response, "ping", payload⟩) := by
  have read : readMessage nullCodec (writeTuple ⟨.request, "ping", bytes "null"⟩) =
      .ok ({ id := some (.newString "ping"), method := "ping", params := some (.other "null") }, []) := by
    rfl
  obtain ⟨payload, carried⟩ := ((messagePack_framing nullCodec).2 _ [] ⟨.request, "ping", bytes "null"⟩ _
    (by decide +kernel) rfl read (.other "null") _ rfl).mpr (by decide)
  exact ⟨payload, congrArg Except.ok carried⟩

/-- The answer to a request without a method carries the text of a number. -/
theorem emptyMethod_answeredAsZero :
    readTuple (writeTuple ⟨.request, "", bytes "null"⟩) = .ok (⟨.request, "", bytes "null"⟩, []) ∧
    ∃ message, readMessage nullCodec (writeTuple ⟨.request, "", bytes "null"⟩) = .ok (message, []) ∧
      writeResponse nullCodec message.id (.other "null") = .ok (writeTuple ⟨.response, "0", bytes "null"⟩) ∧
      ∀ payload, writeTuple ⟨.response, "0", bytes "null"⟩ ≠ writeTuple ⟨.response, "", payload⟩ :=
  ⟨by decide +kernel, _, rfl, rfl, writeTuple_empty_ne _ _ _⟩

end TypeScriptRs.Wire
