import TypeScriptRs.SourceMap.CheckedDecoder

/-! When a string of mappings is decoded without an overflow. -/
namespace TypeScriptRs.SourceMap
open Machine List

/-- A value that a 32-bit register holds and that is not negative. -/
def Counts (x : Int) : Prop := 0 ≤ x ∧ x < 2 ^ 31

structure Running.Counted (r : Running) : Prop where
  line : Counts r.line
  character : Counts r.character
  sourceIndex : Counts r.sourceIndex
  sourceLine : Counts r.sourceLine
  sourceCharacter : Counts r.sourceCharacter
  nameIndex : Counts r.nameIndex

theorem counts_zero : Counts 0 := ⟨le_refl _, by norm_num⟩

theorem Running.start_counted : Running.start.Counted :=
  ⟨counts_zero, counts_zero, counts_zero, counts_zero, counts_zero, counts_zero⟩

structure Mapping.Plain (m : Mapping) : Prop where
  generatedLine : 0 ≤ m.generatedLine
  generatedCharacter : 0 ≤ m.generatedCharacter
  sourceIndex : 0 ≤ m.sourceIndex ∨ m.sourceIndex = missingSource
  sourceLine : 0 ≤ m.sourceLine ∨ m.sourceLine = missingLineOrColumn
  sourceCharacter : 0 ≤ m.sourceCharacter ∨ m.sourceCharacter = missingLineOrColumn
  nameIndex : 0 ≤ m.nameIndex ∨ m.nameIndex = missingName

def AllFit (qs : List Quantity) : Prop := ∀ q ∈ qs, q.Fits

theorem allFit_nil : AllFit [] := by
  rintro _ ⟨⟩

theorem allFit_cons {q : Quantity} {qs : List Quantity} : AllFit (q :: qs) ↔ q.Fits ∧ AllFit qs :=
  forall_mem_cons

theorem checkedAdd_fits {a b : Int} (ha : Counts a) (low : -2 ^ 30 ≤ b) (fits : a + b < 2 ^ 31) :
    checkedAdd a b = .ok (a + b) ∧ i32 (a + b) = a + b := by
  have above : -2 ^ 31 ≤ a + b := by
    have := ha.1
    omega
  exact ⟨if_pos ⟨above, fits⟩, i32_of_range above fits⟩

theorem checkedAdd_exceeds {a b : Int} (exceeds : ¬ a + b < 2 ^ 31) : checkedAdd a b = .panic addOverflow :=
  if_neg fun within => exceeds within.2

theorem numberOf_low (digits : List Nat) : -2 ^ 30 ≤ numberOf digits := by
  have low : -2 ^ 31 ≤ i32 (register 0 0 digits) := by
    have := Int.le_bmod (x := (register 0 0 digits : Int)) (m := 2 ^ 32) (by decide)
    unfold i32
    omega
  have high := i32_lt (register 0 0 digits)
  unfold numberOf signedRegister
  split
  · omega
  · rw [i32_of_range (by omega) (by omega)]
    omega

namespace MappingsDecoder

variable {d : MappingsDecoder} {bytes : List UInt8} {r : Running} {size : Nat}

/-- What reading a number can do: too many digits abort it, and a number that is cut off is reported. -/
inductive ReadsNumber (r : Running) (bytes : List UInt8) (count value : Nat) (wrapped : Int × MappingsDecoder) :
    Outcome (Int × MappingsDecoder) → Prop
  | overflow {message : String} (long : 7 < count + (digitRun bytes).1.length) :
      ReadsNumber r bytes count value wrapped (.panic message)
  | broken {d : MappingsDecoder} (short : count + (digitRun bytes).1.length ≤ 7) (cut : (digitRun bytes).2 = none)
      (same : wrapped = (-1, d)) (reported : d.hasReportedError = true) (kept : d.running = r) :
      ReadsNumber r bytes count value wrapped (.ok (-1, d))
  | number {d : MappingsDecoder} {rest : List UInt8} (short : count + (digitRun bytes).1.length ≤ 7)
      (whole : (digitRun bytes).2 = some rest)
      (same : wrapped = (signedRegister (register (5 * count) value (digitRun bytes).1), d))
      (reads : d.Reads rest r) (shorter : rest.length < bytes.length) :
      ReadsNumber r bytes count value wrapped
        (.ok (signedRegister (register (5 * count) value (digitRun bytes).1), d))

theorem checkedDigits_reads (r : Running) (bytes : List UInt8) : ∀ (count value : Nat) (d : MappingsDecoder),
    d.Reads bytes r → count ≤ 7 →
    ReadsNumber r bytes count value (vlqDigits bytes.length (5 * count) value d)
      (checkedDigits bytes.length (5 * count) value d) := by
  induction bytes with
  | nil =>
    intro count value d h few
    exact .broken few rfl rfl rfl h.running
  | cons ch rest ih =>
    intro count value d h few
    obtain ⟨hb, tail⟩ := getElem_of_drop h.rest
    have moved : { d with pos := d.pos + 1 }.Reads rest r := ⟨tail, h.running, h.error, h.done⟩
    simp only [length_cons, vlqDigits, checkedDigits, hb]
    by_cases invalid : base64FormatDecode ch = -1
    · have run : digitRun (ch :: rest) = ([], none) := by rw [digitRun, if_pos invalid]
      rw [if_pos invalid, if_pos invalid]
      refine .broken ?_ ?_ rfl rfl h.running
      · rw [run]
        exact few
      · rw [run]
    rw [if_neg invalid, if_neg invalid]
    have length : 1 ≤ (digitRun (ch :: rest)).1.length := by
      rw [digitRun, if_neg invalid]
      split
      · exact Nat.succ_pos _
      · exact le_refl _
    by_cases full : 32 ≤ 5 * count
    · rw [if_pos full]
      exact .overflow (by omega)
    rw [if_neg full, Nat.mod_eq_of_lt (Nat.lt_of_not_le full)]
    by_cases more : (base64FormatDecode ch).toNat &&& 32 ≠ 0
    · have run : digitRun (ch :: rest) =
          ((base64FormatDecode ch).toNat :: (digitRun rest).1, (digitRun rest).2) := by
        rw [digitRun, if_neg invalid, if_pos more]
      rw [if_pos more, if_pos more]
      have later := ih (count + 1) ((value ||| ((base64FormatDecode ch).toNat &&& 31) <<< (5 * count)) % 2 ^ 32)
        _ moved (by omega)
      rw [Nat.mul_succ] at later
      generalize vlqDigits rest.length _ _ _ = wrapped, checkedDigits rest.length _ _ _ = outcome at later ⊢
      cases later with
      | overflow long =>
        refine .overflow ?_
        rw [run, length_cons]
        omega
      | broken short cut same reported kept =>
        refine .broken ?_ ?_ same reported kept
        · rw [run, length_cons]
          omega
        · rw [run]
          exact cut
      | number short whole same reads shorter =>
        have value' : register (5 * count) value (digitRun (ch :: rest)).1 = register (5 * (count + 1))
            ((value ||| ((base64FormatDecode ch).toNat &&& 31) <<< (5 * count)) % 2 ^ 32) (digitRun rest).1 := by
          rw [run, register, Nat.mul_succ]
        rw [← value'] at same ⊢
        refine .number ?_ ?_ same reads (Nat.lt_succ_of_lt shorter)
        · rw [run, length_cons]
          omega
        · rw [run]
          exact whole
    · have run : digitRun (ch :: rest) = ([(base64FormatDecode ch).toNat], some rest) := by
        rw [digitRun, if_neg invalid, if_neg more]
      rw [if_neg more, if_neg more]
      have value' : register (5 * count) value (digitRun (ch :: rest)).1 =
          (value ||| ((base64FormatDecode ch).toNat &&& 31) <<< (5 * count)) % 2 ^ 32 := by
        rw [run, register, register]
      rw [← value']
      refine .number ?_ ?_ rfl moved (Nat.lt_succ_self _)
      · rw [run, length_singleton]
        omega
      · rw [run]

theorem checkedVlq_reads (h : d.Reads bytes r) : ReadsNumber r bytes 0 0 d.base64VlqFormatDecode d.checkedVlq := by
  have read := checkedDigits_reads r bytes 0 0 d h (by decide)
  rw [← h.left] at read
  exact read

/-- What a step can do, beside its wrapped form: it aborts, ends the run or yields a mapping, and what is
demanded of the rest of the string is then unmeetable, met or still to be met. -/
inductive Steps (size : Nat) (wrapped : Option Mapping × MappingsDecoder) (demands : Later → List Quantity) :
    Outcome (Option Mapping × MappingsDecoder) → Prop
  | overflow {message : String} (unmet : ∀ next, ¬ AllFit (demands next)) :
      Steps size wrapped demands (.panic message)
  | stop {d : MappingsDecoder} (same : wrapped = (none, d)) (done : d.done = true)
      (met : ∀ next, AllFit (demands next)) : Steps size wrapped demands (.ok (none, d))
  | mapping {m : Mapping} {d : MappingsDecoder} {rest : List UInt8} {r : Running} (same : wrapped = (some m, d))
      (plain : m.Plain) (reads : d.Reads rest r) (counted : r.Counted) (shorter : rest.length < size)
      (later : ∀ next, AllFit (demands next) ↔ AllFit (next r rest)) : Steps size wrapped demands (.ok (some m, d))

theorem Steps.demand {wrapped : Option Mapping × MappingsDecoder} {demands demands' : Later → List Quantity}
    {outcome : Outcome (Option Mapping × MappingsDecoder)} (steps : Steps size wrapped demands outcome)
    (same : ∀ next, AllFit (demands' next) ↔ AllFit (demands next)) : Steps size wrapped demands' outcome := by
  cases steps with
  | overflow unmet => exact .overflow fun next all => unmet next ((same next).mp all)
  | stop wraps done met => exact .stop wraps done fun next => (same next).mpr (met next)
  | mapping wraps plain reads counted shorter later =>
    exact .mapping wraps plain reads counted shorter fun next => (same next).trans (later next)

section
def nextField (d : MappingsDecoder) (total : MappingsDecoder → Int) (store : MappingsDecoder → Int → MappingsDecoder)
    (message : String) (rest : MappingsDecoder → Option Mapping × MappingsDecoder) :
    Option Mapping × MappingsDecoder :=
  let number := d.base64VlqFormatDecode
  let sum := i32 (total number.2 + number.1)
  let d := store number.2 sum
  if d.hasReportedError then d.stopIterating
  else if sum < 0 then d.setErrorAndStopIterating message
  else rest d

/-- A field of the decoder and the running value that it keeps. -/
structure Keeps (total : MappingsDecoder → Int) (store : MappingsDecoder → Int → MappingsDecoder)
    (value : Running → Int) (put : Running → Int → Running) : Prop where
  total : ∀ d, total d = value d.running
  error : ∀ d x, (store d x).hasReportedError = d.hasReportedError
  reads : ∀ {d rest r} (x), d.Reads rest r → (store d x).Reads rest (put r x)
  counts : ∀ {r}, r.Counted → Counts (value r)
  counted : ∀ {r} {x}, r.Counted → Counts x → (put r x).Counted

variable {total : MappingsDecoder → Int} {store : MappingsDecoder → Int → MappingsDecoder}
  {value : Running → Int} {put : Running → Int → Running}
  {checkedRest : MappingsDecoder → Outcome (Option Mapping × MappingsDecoder)}
  {rest : MappingsDecoder → Option Mapping × MappingsDecoder}
  {more : Int → List UInt8 → Later → List Quantity}
  {d : MappingsDecoder} {bytes : List UInt8} {r : Running} {size : Nat}

theorem checkedField_steps (keeps : Keeps total store value put) (message : String) (h : d.Reads bytes r)
    (counted : r.Counted) (enough : bytes.length ≤ size)
    (further : ∀ {d' bytes' x}, d'.Reads bytes' (put r x) → (put r x).Counted → bytes'.length < size →
      Steps size (rest d') (more x bytes') (checkedRest d')) :
    Steps size (d.nextField total store message rest)
      (fun next => addNumber bytes (value r) fun x bytes' => more x bytes' next)
      (d.checkedField total store message checkedRest) := by
  have counts := keeps.counts counted
  have read := checkedVlq_reads h
  unfold checkedField nextField
  generalize d.checkedVlq = outcome, d.base64VlqFormatDecode = wrapped at read ⊢
  cases read with
  | overflow long =>
    refine .overflow fun next fits => ?_
    have short : (digitRun bytes).1.length ≤ 7 := (allFit_cons.mp fits).1
    omega
  | broken short cut same reported kept =>
    subst same
    obtain ⟨added, wraps⟩ := checkedAdd_fits (b := -1) counts (by norm_num) (by have := counts.2; omega)
    rw [Outcome.bind_ok]
    simp only [keeps.total, kept, added, wraps, Outcome.bind_ok, keeps.error, reported, if_true]
    have few : (digitRun bytes).1.length ≤ 7 := by simpa using short
    refine .stop rfl rfl fun next => ?_
    simp only [addNumber, cut]
    exact allFit_cons.mpr ⟨few, allFit_nil⟩
  | @number d₁ bytes' short whole same reads shorter =>
    subst same
    rw [Outcome.bind_ok]
    simp only [keeps.total, reads.running, keeps.error, reads.noError, Bool.false_eq_true, if_false]
    have sum : signedRegister (register (5 * 0) 0 (digitRun bytes).1) = numberOf (digitRun bytes).1 := rfl
    have quantities : ∀ next, addNumber bytes (value r) (fun x bytes' => more x bytes' next) =
        .digits (digitRun bytes).1.length :: .total (value r + numberOf (digitRun bytes).1) ::
          if value r + numberOf (digitRun bytes).1 < 0 then []
          else more (value r + numberOf (digitRun bytes).1) bytes' next := by
      intro next
      simp only [addNumber, whole]
    have few : (digitRun bytes).1.length ≤ 7 := by simpa using short
    rw [sum]
    by_cases fits : value r + numberOf (digitRun bytes).1 < 2 ^ 31
    · obtain ⟨added, wraps⟩ := checkedAdd_fits counts (numberOf_low _) fits
      have head : ∀ qs, AllFit (.digits (digitRun bytes).1.length ::
          .total (value r + numberOf (digitRun bytes).1) :: qs) ↔ AllFit qs := by
        intro qs
        rw [allFit_cons, allFit_cons]
        exact ⟨fun all => all.2.2, fun all => ⟨few, fits, all⟩⟩
      rw [added, wraps, Outcome.bind_ok]
      simp only [quantities]
      split
      · exact .stop rfl rfl fun next => (head _).mpr allFit_nil
      · rename_i nonneg
        have next := further (keeps.reads (value r + numberOf (digitRun bytes).1) reads)
          (keeps.counted counted ⟨not_lt.mp nonneg, fits⟩) (by omega)
        exact next.demand fun _ => head _
    · rw [checkedAdd_exceeds fits]
      refine .overflow fun next all => fits ?_
      rw [quantities] at all
      exact (allFit_cons.mp (allFit_cons.mp all).2).1
end

section
variable {d : MappingsDecoder} {bytes : List UInt8} {r : Running} {size : Nat}

theorem Reads.ends (h : d.Reads bytes r) : d.isSourceMappingSegmentEnd = endsSegment bytes := by
  unfold isSourceMappingSegmentEnd
  cases bytes with
  | nil => rw [List.getElem?_eq_none (drop_eq_nil_iff.mp h.rest), endsSegment]
  | cons b tail => rw [(getElem_of_drop h.rest).1, endsSegment]

theorem Reads.plain (h : d.Reads bytes r) (counted : r.Counted) (hasSource hasName : Bool) :
    (d.captureMapping hasSource hasName).Plain := by
  rw [h.capture]
  refine ⟨counted.line.1, counted.character.1, ?_, ?_, ?_, ?_⟩
  · cases hasSource with
    | true => exact .inl counted.sourceIndex.1
    | false => exact .inr rfl
  · cases hasSource with
    | true => exact .inl counted.sourceLine.1
    | false => exact .inr rfl
  · cases hasSource with
    | true => exact .inl counted.sourceCharacter.1
    | false => exact .inr rfl
  · cases hasName with
    | true => exact .inl counted.nameIndex.1
    | false => exact .inr rfl

theorem Reads.steps (h : d.Reads bytes r) (counted : r.Counted) (shorter : bytes.length < size) (hasSource hasName : Bool) :
    Steps size (some (d.captureMapping hasSource hasName), d) (fun next => next r bytes)
      (.ok (some (d.captureMapping hasSource hasName), d)) :=
  .mapping rfl (h.plain counted hasSource hasName) h counted shorter fun _ => Iff.rfl

theorem steps_error (d : MappingsDecoder) (message : String) (size : Nat) :
    Steps size (d.setErrorAndStopIterating message) (fun _ => []) (.ok (d.setErrorAndStopIterating message)) :=
  .stop rfl rfl fun _ => allFit_nil

theorem keepsName : Keeps nameIndex (fun d x => { d with nameIndex := x }) Running.nameIndex
    (fun r x => { r with nameIndex := x }) :=
  ⟨fun _ => rfl, fun _ _ => rfl, fun x h => h.setNameIndex x, Running.Counted.nameIndex,
    fun counted counts => { counted with nameIndex := counts }⟩

theorem keepsSourceCharacter : Keeps sourceCharacter (fun d x => { d with sourceCharacter := x })
    Running.sourceCharacter (fun r x => { r with sourceCharacter := x }) :=
  ⟨fun _ => rfl, fun _ _ => rfl, fun x h => h.setSourceCharacter x, Running.Counted.sourceCharacter,
    fun counted counts => { counted with sourceCharacter := counts }⟩

theorem keepsSourceLine : Keeps sourceLine (fun d x => { d with sourceLine := x }) Running.sourceLine
    (fun r x => { r with sourceLine := x }) :=
  ⟨fun _ => rfl, fun _ _ => rfl, fun x h => h.setSourceLine x, Running.Counted.sourceLine,
    fun counted counts => { counted with sourceLine := counts }⟩

theorem keepsSource : Keeps sourceIndex (fun d x => { d with sourceIndex := x }) Running.sourceIndex
    (fun r x => { r with sourceIndex := x }) :=
  ⟨fun _ => rfl, fun _ _ => rfl, fun x h => h.setSourceIndex x, Running.Counted.sourceIndex,
    fun counted counts => { counted with sourceIndex := counts }⟩

theorem keepsCharacter : Keeps generatedCharacter (fun d x => { d with generatedCharacter := x })
    Running.character (fun r x => { r with character := x }) :=
  ⟨fun _ => rfl, fun _ _ => rfl, fun x h => h.setGeneratedCharacter x, Running.Counted.character,
    fun counted counts => { counted with character := counts }⟩

theorem nextName_eq (d : MappingsDecoder) : d.nextName =
    if d.isSourceMappingSegmentEnd then (some (d.captureMapping true false), d)
    else
      d.nextField nameIndex (fun d x => { d with nameIndex := x }) "Invalid nameIndex found" fun d =>
        if !d.isSourceMappingSegmentEnd then
          d.setErrorAndStopIterating "Unsupported Error Format: Entries after nameIndex"
        else (some (d.captureMapping true true), d) := rfl

theorem nextSourceCharacter_eq (d : MappingsDecoder) : d.nextSourceCharacter =
    d.nextField sourceCharacter (fun d x => { d with sourceCharacter := x }) "Invalid sourceCharacter found"
      nextName := rfl

theorem nextSourceLine_eq (d : MappingsDecoder) : d.nextSourceLine =
    d.nextField sourceLine (fun d x => { d with sourceLine := x }) "Invalid sourceLine found" fun d =>
      if d.isSourceMappingSegmentEnd then
        d.setErrorAndStopIterating "Unsupported Format: No entries after sourceLine"
      else d.nextSourceCharacter := rfl

theorem nextSource_eq (d : MappingsDecoder) : d.nextSource =
    if d.isSourceMappingSegmentEnd then (some (d.captureMapping false false), d)
    else
      d.nextField sourceIndex (fun d x => { d with sourceIndex := x }) "Invalid sourceIndex found" fun d =>
        if d.isSourceMappingSegmentEnd then
          d.setErrorAndStopIterating "Unsupported Format: No entries after sourceIndex"
        else d.nextSourceLine := rfl

theorem nextSegment_eq (d : MappingsDecoder) : d.nextSegment =
    d.nextField generatedCharacter (fun d x => { d with generatedCharacter := x })
      "Invalid generatedCharacter found" nextSource := rfl

section
variable (h : d.Reads bytes r) (counted : r.Counted) (shorter : bytes.length < size)
include h counted shorter

theorem checkedName_steps : Steps size d.nextName (nameQuantities r bytes) d.checkedName := by
  unfold checkedName nameQuantities
  rw [nextName_eq, h.ends]
  split
  · exact h.steps counted shorter true false
  refine checkedField_steps keepsName _ h counted shorter.le fun {d' bytes' x} read counted fewer => ?_
  rw [read.ends]
  cases endsSegment bytes' with
  | true => exact read.steps counted fewer true true
  | false => exact steps_error _ _ _

theorem checkedSourceCharacter_steps :
    Steps size d.nextSourceCharacter (sourceCharacterQuantities r bytes) d.checkedSourceCharacter := by
  rw [nextSourceCharacter_eq]
  exact checkedField_steps keepsSourceCharacter _ h counted shorter.le fun read counted fewer =>
    checkedName_steps read counted fewer

theorem checkedSourceLine_steps : Steps size d.nextSourceLine (sourceLineQuantities r bytes) d.checkedSourceLine := by
  rw [nextSourceLine_eq]
  refine checkedField_steps keepsSourceLine _ h counted shorter.le fun {d' bytes' x} read counted fewer => ?_
  rw [read.ends]
  cases endsSegment bytes' with
  | true => exact steps_error _ _ _
  | false => exact checkedSourceCharacter_steps read counted fewer

theorem checkedSource_steps : Steps size d.nextSource (sourceQuantities r bytes) d.checkedSource := by
  unfold checkedSource sourceQuantities
  rw [nextSource_eq, h.ends]
  split
  · exact h.steps counted shorter false false
  refine checkedField_steps keepsSource _ h counted shorter.le fun {d' bytes' x} read counted fewer => ?_
  rw [read.ends]
  cases endsSegment bytes' with
  | true => exact steps_error _ _ _
  | false => exact checkedSourceLine_steps read counted fewer
end

theorem checkedSegment_steps (h : d.Reads bytes r) (counted : r.Counted) (enough : bytes.length ≤ size) :
    Steps size d.nextSegment (segmentQuantities r bytes) d.checkedSegment := by
  rw [nextSegment_eq]
  exact checkedField_steps keepsCharacter _ h counted enough fun read counted fewer =>
    checkedSource_steps read counted fewer
end

theorem checkedLoop_steps (bytes : List UInt8) : ∀ (d : MappingsDecoder) (r : Running),
    d.Reads bytes r → r.Counted → bytes.length ≤ size →
    Steps size (nextMappingLoop bytes.length d) (mappingQuantities r bytes) (checkedLoop bytes.length d) := by
  induction bytes with
  | nil =>
    intro d r _ _ _
    exact .stop rfl rfl fun _ => allFit_nil
  | cons ch tail ih =>
    intro d r h counted enough
    obtain ⟨hb, rest⟩ := getElem_of_drop h.rest
    have fewer : tail.length ≤ size := by
      rw [length_cons] at enough
      omega
    rw [length_cons, nextMappingLoop, checkedLoop, hb]
    simp only [mappingQuantities]
    by_cases semicolon : ch = 59
    · simp only [if_pos semicolon]
      have line : d.generatedLine = r.line := congrArg Running.line h.running
      by_cases fits : r.line + 1 < 2 ^ 31
      · obtain ⟨added, wraps⟩ := checkedAdd_fits (b := 1) counted.line (by norm_num) fits
        have read : { d with generatedLine := r.line + 1, generatedCharacter := 0, pos := d.pos + 1 }.Reads tail
            { r with line := r.line + 1, character := 0 } :=
          ⟨rest, by rw [← h.running]; rfl, h.error, h.done⟩
        have lineCounts : Counts (r.line + 1) := ⟨by have := counted.line.1; omega, fits⟩
        have next := ih _ _ read { counted with line := lineCounts, character := counts_zero } fewer
        rw [line, added, wraps, Outcome.bind_ok]
        have head : ∀ qs, AllFit (.total (r.line + 1) :: qs) ↔ AllFit qs := by
          intro qs
          rw [allFit_cons]
          exact ⟨fun all => all.2, fun all => ⟨fits, all⟩⟩
        exact next.demand fun _ => head _
      · rw [line, checkedAdd_exceeds fits]
        exact .overflow fun next all => fits (allFit_cons.mp all).1
    · simp only [if_neg semicolon]
      by_cases comma : ch = 44
      · simp only [if_pos comma]
        exact ih _ r ⟨rest, h.running, h.error, h.done⟩ counted fewer
      · simp only [if_neg comma]
        exact checkedSegment_steps h counted enough

theorem checkedMapping_steps (h : d.Reads bytes r) (counted : r.Counted) :
    Steps bytes.length d.nextMapping (mappingQuantities r bytes) d.checkedMapping := by
  have loop := checkedLoop_steps bytes d r h counted (le_refl _)
  unfold nextMapping checkedMapping
  rw [h.done]
  exact h.left ▸ loop

theorem checkedCollect_spec (fuel : Nat) : ∀ (d : MappingsDecoder) (bytes : List UInt8) (r : Running),
    d.Reads bytes r → r.Counted → bytes.length < fuel →
    (AllFit (quantities fuel r bytes) ∧ ∃ ms d', d.checkedCollect fuel = .ok (ms, d') ∧
        d.collect fuel = (ms, d') ∧ d'.done = true ∧ ∀ m ∈ ms, m.Plain) ∨
      (¬ AllFit (quantities fuel r bytes) ∧ ∃ message, d.checkedCollect fuel = .panic message) := by
  induction fuel with
  | zero =>
    intro d bytes r _ _ enough
    exact absurd enough (Nat.not_lt_zero _)
  | succ fuel ih =>
    intro d bytes r h counted enough
    have step := checkedMapping_steps h counted
    rw [checkedCollect, collect, quantities]
    generalize d.checkedMapping = outcome, d.nextMapping = wrapped at step ⊢
    cases step with
    | overflow unmet => exact .inr ⟨unmet _, _, rfl⟩
    | stop same done met =>
      subst same
      exact .inl ⟨met _, [], _, rfl, rfl, done, by rintro _ ⟨⟩⟩
    | @mapping m d₁ rest r₁ same plain reads counted shorter later =>
      subst same
      have rest := ih d₁ rest r₁ reads counted (by omega)
      rw [Outcome.bind_ok]
      rw [later]
      rcases rest with ⟨fits, ms, d', checked, same, done, all⟩ | ⟨unmet, message, aborts⟩
      · refine .inl ⟨fits, m :: ms, d', ?_, ?_, done, ?_⟩
        · dsimp only
          rw [checked, Outcome.bind_ok]
        · dsimp only
          rw [same]
        · exact forall_mem_cons.mpr ⟨plain, all⟩
      · refine .inr ⟨unmet, message, ?_⟩
        rw [aborts]
        rfl

theorem decodeBytes_reads (bytes : List UInt8) : (decodeBytes bytes).Reads bytes .start :=
  ⟨rfl, rfl, rfl, rfl⟩

end MappingsDecoder

theorem decodeMappings_wrapped {text : String} (fits : ∀ q ∈ allQuantities (asBytes text), q.Fits) :
    ∃ result, (decodeMappings text).checkedCollectAll = .ok result ∧ (decodeMappings text).collectAll = result := by
  have run := MappingsDecoder.checkedCollect_spec ((asBytes text).length + 1) _ (asBytes text) .start
    (MappingsDecoder.decodeBytes_reads _) Running.start_counted (Nat.lt_succ_self _)
  rcases run with ⟨-, ms, d, checked, same, -⟩ | ⟨unmet, -⟩
  · exact ⟨(ms, d), checked, same⟩
  · exact absurd fits unmet

end TypeScriptRs.SourceMap
