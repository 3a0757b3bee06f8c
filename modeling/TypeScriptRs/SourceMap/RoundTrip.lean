import TypeScriptRs.SourceMap.GeneratorText
import TypeScriptRs.SourceMap.DecoderText

/-! Decoding what a generator has written gives back what it committed. -/
namespace TypeScriptRs.SourceMap
open Machine

theorem rawSourceMap_writes {g : Generator} {ms : List Mapping} (h : g.Writes ms) :
    ∃ raw g', g.rawSourceMap = .ok (raw, g') ∧ Encodable .start (ms ++ g.committed) ∧
      raw.mappings.toList = Running.start.encode false (ms ++ g.committed) := by
  obtain ⟨g', hok, hw, -⟩ := Generator.commitPendingMapping_writes h
  exact ⟨_, g', by rw [Generator.rawSourceMap, hok]; rfl, hw.encodable, hw.text⟩

/-- No run of calls below 2^30 reaches a panic of the generator, and the text of a run
that succeeds decodes to the mappings the run committed. -/
theorem decodeMappings_rawSourceMap (file sourceRoot : String) (relative : String → String)
    (calls : List Call) (below : ∀ c ∈ calls, c.Below) :
    (∀ message, runCalls (newGenerator file sourceRoot relative) calls ≠ .panic message) ∧
    ∀ g ms, runCalls (newGenerator file sourceRoot relative) calls = .ok (g, ms) →
      ∃ raw g' d, g.rawSourceMap = .ok (raw, g') ∧
        (decodeMappings raw.mappings).collectAll = (ms ++ g.committed, d) ∧
        d.error = none ∧ d.done = true := by
  rcases runCalls_writes (Generator.newGenerator_writes file sourceRoot relative) calls below with
    ⟨g, ms, ran, writes⟩ | ⟨message, failed⟩
  · rw [ran]
    refine ⟨fun _ => by simp, ?_⟩
    intro g₁ ms₁ same
    obtain ⟨rfl, rfl⟩ := same
    obtain ⟨raw, g', hraw, encodable, text⟩ := rawSourceMap_writes writes
    obtain ⟨d, decoded, clean⟩ := MappingsDecoder.collectAll_spec encodable text
    exact ⟨raw, g', d, hraw, decoded, clean⟩
  · rw [failed]
    exact ⟨fun _ => by simp, fun _ _ h => by simp at h⟩

def sampleCalls : List Call :=
  [.addSource "a.ts", .addName "f", .addGeneratedMapping 0 0, .addSourceMapping 0 4 0 0 2,
    .addNamedSourceMapping 2 7 0 1 5 0, .addSource "b.ts", .addSourceMapping 2 1 1 0 0]

def sampleMappings : List Mapping :=
  [⟨0, 0, -1, -1, -1, -1⟩, ⟨0, 4, 0, 0, 2, -1⟩, ⟨2, 7, 0, 1, 5, 0⟩, ⟨2, 1, 1, 0, 0, -1⟩]

theorem runCalls_sampleCalls : ∃ g ms, runCalls (newGenerator "out.js" "" id) sampleCalls = .ok (g, ms) ∧
    ms ++ g.committed = sampleMappings :=
  ⟨_, _, rfl, rfl⟩

theorem decodeMappings_sampleCalls :
    (∀ c ∈ sampleCalls, c.Below) ∧
    ∃ g ms raw g' d, runCalls (newGenerator "out.js" "" id) sampleCalls = .ok (g, ms) ∧
      g.rawSourceMap = .ok (raw, g') ∧
      (decodeMappings raw.mappings).collectAll = (sampleMappings, d) ∧
      d.error = none ∧ d.done = true := by
  obtain ⟨g, ms, ran, same⟩ := runCalls_sampleCalls
  obtain ⟨raw, g', d, hraw, decoded, clean⟩ :=
    (decodeMappings_rawSourceMap "out.js" "" id sampleCalls (by decide)).2 g ms ran
  exact ⟨by decide, g, ms, raw, g', d, ran, hraw, same ▸ decoded, clean⟩

end TypeScriptRs.SourceMap

namespace TypeScriptRs.SourceMap
open Machine

/-- What is done to a generator: an addition, or a call that serialises it. -/
inductive Event where
  | call (c : Call)
  | serialise

def Event.isCall : Event → Bool
  | .call _ => true
  | .serialise => false

/-- A call that returns an error leaves the generator as it is. -/
def Generator.step (g : Generator) : Event → Outcome Generator
  | .call c =>
    match c.run g with
    | .ok g => .ok g
    | .err _ => .ok g
    | .panic message => .panic message
  | .serialise => g.rawSourceMap.bind fun result => .ok result.2

def runEvents : Generator → List Event → Outcome Generator
  | g, [] => .ok g
  | g, event :: rest => (g.step event).bind fun g => runEvents g rest

def finalMap (g : Generator) (events : List Event) : Outcome RawSourceMap :=
  (runEvents g events).bind fun g => g.rawSourceMap.bind fun result => .ok result.1

namespace Generator

/-- An addition opens a new pending mapping: at another generated position, or further back in its source. -/
def opens (g : Generator) (m : Mapping) : Bool :=
  g.isNewGeneratedPosition m.generatedLine m.generatedCharacter
    || g.isBacktrackingSourcePosition m.sourceIndex m.sourceLine m.sourceCharacter

/-- An addition says nothing that the pending mapping does not say. -/
def repeats (g : Generator) (m : Mapping) : Bool :=
  m.sourceIndex == sourceIndexNotSet
    || (g.hasPendingSource && g.pendingSourceIndex == m.sourceIndex && g.pendingSourceLine == m.sourceLine
      && g.pendingSourceCharacter == m.sourceCharacter
      && (m.nameIndex == nameIndexNotSet || (g.hasPendingName && g.pendingNameIndex == m.nameIndex)))

end Generator

namespace Call

/-- The mapping that a call adds; what it does not give is not set. -/
def mapping : Call → Option Mapping
  | .addSource _ => none
  | .addName _ => none
  | .addGeneratedMapping gl gc => some ⟨gl, gc, sourceIndexNotSet, notSet, notSet, nameIndexNotSet⟩
  | .addSourceMapping gl gc si sl sc => some ⟨gl, gc, si, sl, sc, nameIndexNotSet⟩
  | .addNamedSourceMapping gl gc si sl sc ni => some ⟨gl, gc, si, sl, sc, ni⟩

def isAccepted (g : Generator) (c : Call) : Bool :=
  match c.run g with
  | .ok _ => true
  | _ => false

def opens (g : Generator) (c : Call) : Bool := c.isAccepted g && c.mapping.any g.opens

def amends (g : Generator) (c : Call) : Bool := c.isAccepted g && c.mapping.any fun m => !g.opens m && !g.repeats m

end Call

/-- No addition changes in place a mapping that a serialising call has written early. -/
def quiet : Bool → Generator → List Event → Bool
  | _, _, [] => true
  | written, g, .serialise :: rest =>
    match g.step .serialise with
    | .ok g' => quiet (written || g.shouldCommitMapping) g' rest
    | _ => true
  | written, g, .call c :: rest =>
    !(written && c.amends g)
      && match g.step (.call c) with
        | .ok g' => quiet (written && !c.opens g) g' rest
        | _ => true

namespace Generator

def separatedText (g : Generator) : Outcome String :=
  if g.lastGeneratedLine < g.pendingGeneratedLine then
    .ok (appendLines g.mappings (g.pendingGeneratedLine - g.lastGeneratedLine).toNat)
  else if g.lastGeneratedLine ≠ g.pendingGeneratedLine then .panic "generatedLine cannot backtrack"
  else .ok (if g.hasLast then g.mappings.push ',' else g.mappings)

/-- The generated character that the pending one is counted from. -/
def characterBefore (g : Generator) : Int :=
  if g.lastGeneratedLine < g.pendingGeneratedLine then 0 else g.lastGeneratedCharacter

def sourceText (g : Generator) (mappings : String) : Outcome String :=
  if g.hasPendingSource then
    (appendBase64Vlq mappings (i32 (g.pendingSourceIndex - g.lastSourceIndex))).bind fun mappings =>
    (appendBase64Vlq mappings (i32 (g.pendingSourceLine - g.lastSourceLine))).bind fun mappings =>
    (appendBase64Vlq mappings (i32 (g.pendingSourceCharacter - g.lastSourceCharacter))).bind fun mappings =>
    if g.hasPendingName then appendBase64Vlq mappings (i32 (g.pendingNameIndex - g.lastNameIndex))
    else .ok mappings
  else .ok mappings

def committedText (g : Generator) : Outcome String :=
  g.separatedText.bind fun mappings =>
  (appendBase64Vlq mappings (i32 (g.pendingGeneratedCharacter - g.characterBefore))).bind g.sourceText

def committedValues (g : Generator) : Running where
  line := g.pendingGeneratedLine
  character := g.pendingGeneratedCharacter
  sourceIndex := if g.hasPendingSource then g.pendingSourceIndex else g.lastSourceIndex
  sourceLine := if g.hasPendingSource then g.pendingSourceLine else g.lastSourceLine
  sourceCharacter := if g.hasPendingSource then g.pendingSourceCharacter else g.lastSourceCharacter
  nameIndex := if g.hasPendingSource && g.hasPendingName then g.pendingNameIndex else g.lastNameIndex

theorem openLine_eq (g : Generator) : g.openLine = g.separatedText.bind fun mappings =>
    .ok { g with
      mappings := mappings
      lastGeneratedLine := g.pendingGeneratedLine
      lastGeneratedCharacter := g.characterBefore } := by
  unfold openLine separatedText characterBefore
  split
  · rfl
  split
  · rfl
  rename_i same
  cases g
  dsimp only at same ⊢
  obtain rfl := not_not.mp same
  split
  · rfl
  · rfl

theorem bind_bind {α β γ : Type} (x : Outcome α) (f : α → Outcome β) (k : β → Outcome γ) :
    (x.bind f).bind k = x.bind fun a => (f a).bind k := by
  cases x <;> rfl

theorem appendSource_eq (g : Generator) : (if g.hasPendingSource then g.appendSource else .ok g) =
    (g.sourceText g.mappings).bind fun mappings =>
      .ok { g with
        mappings := mappings
        lastSourceIndex := g.committedValues.sourceIndex
        lastSourceLine := g.committedValues.sourceLine
        lastSourceCharacter := g.committedValues.sourceCharacter
        lastNameIndex := g.committedValues.nameIndex } := by
  unfold sourceText committedValues appendSource
  by_cases source : g.hasPendingSource = true
  · simp only [if_pos source, bind_bind]
    cases appendBase64Vlq g.mappings (i32 (g.pendingSourceIndex - g.lastSourceIndex)) with
    | err message => rfl
    | panic message => rfl
    | ok first =>
      simp only [Outcome.bind_ok]
      cases appendBase64Vlq first (i32 (g.pendingSourceLine - g.lastSourceLine)) with
      | err message => rfl
      | panic message => rfl
      | ok second =>
        simp only [Outcome.bind_ok]
        cases appendBase64Vlq second (i32 (g.pendingSourceCharacter - g.lastSourceCharacter)) with
        | err message => rfl
        | panic message => rfl
        | ok third =>
          by_cases named : g.hasPendingName = true
          · have both : (g.hasPendingSource && g.hasPendingName) = true := Bool.and_eq_true_iff.mpr ⟨source, named⟩
            simp only [if_pos named, if_pos both]
          · have either : ¬(g.hasPendingSource && g.hasPendingName) = true := fun both =>
              named (Bool.and_eq_true_iff.mp both).2
            simp only [if_neg named, if_neg either, Outcome.bind_ok]
  · have either : ¬(g.hasPendingSource && g.hasPendingName) = true := fun both =>
      source (Bool.and_eq_true_iff.mp both).1
    simp only [if_neg source, if_neg either, Outcome.bind_ok]

theorem commitPendingMapping_eq (g : Generator) : g.commitPendingMapping =
    if g.shouldCommitMapping then
      g.committedText.bind fun mappings => .ok (g.withRunning g.committedValues mappings)
    else .ok g := by
  unfold commitPendingMapping
  cases should : g.shouldCommitMapping with
  | false => rfl
  | true =>
    rw [Bool.not_true, if_neg Bool.false_ne_true, if_pos rfl, openLine_eq]
    unfold committedText
    cases g.separatedText with
    | err message => rfl
    | panic message => rfl
    | ok first =>
      simp only [Outcome.bind_ok]
      cases appendBase64Vlq first (i32 (g.pendingGeneratedCharacter - g.characterBefore)) with
      | err message => rfl
      | panic message => rfl
      | ok second =>
        simp only [Outcome.bind_ok]
        let opened : Generator := { g with
          mappings := second
          lastGeneratedLine := g.pendingGeneratedLine
          lastGeneratedCharacter := g.pendingGeneratedCharacter }
        refine (congrArg (fun x => Outcome.bind x fun g => .ok { g with hasLast := true }) (appendSource_eq opened)).trans ?_
        have text : opened.sourceText opened.mappings = g.sourceText second := rfl
        rw [text]
        cases g.sourceText second with
        | err message => rfl
        | panic message => rfl
        | ok third => rfl

theorem base64FormatEncode_returns {value : Nat} (small : value < 64) : ∃ char, base64FormatEncode value = .ok char :=
  ⟨_, base64FormatEncode_ok small⟩

theorem appendDigits_returns (fuel : Nat) (inValue : Int) (mappings : String) :
    ∃ text, appendDigits fuel inValue mappings = .ok text := by
  induction fuel generalizing inValue mappings with
  | zero => exact ⟨mappings, rfl⟩
  | succ fuel ih =>
    have low : (inValue % 32).toNat < 32 := by omega
    rw [appendDigits]
    have small : (if inValue / 32 > 0 then (inValue % 32).toNat ||| 32 else (inValue % 32).toNat) < 64 := by
      split
      · rw [or_continuation _ low]
        omega
      · omega
    obtain ⟨char, encoded⟩ := base64FormatEncode_returns small
    rw [encoded, Outcome.bind_ok]
    split
    · exact ⟨_, rfl⟩
    · exact ih _ _

theorem appendBase64Vlq_returns (mappings : String) (inValue : Int) :
    ∃ text, appendBase64Vlq mappings inValue = .ok text := appendDigits_returns _ _ _

theorem sourceText_returns (g : Generator) (mappings : String) : ∃ text, g.sourceText mappings = .ok text := by
  unfold sourceText
  split
  · obtain ⟨first, written⟩ := appendBase64Vlq_returns mappings (i32 (g.pendingSourceIndex - g.lastSourceIndex))
    obtain ⟨second, written'⟩ := appendBase64Vlq_returns first (i32 (g.pendingSourceLine - g.lastSourceLine))
    obtain ⟨third, written''⟩ :=
      appendBase64Vlq_returns second (i32 (g.pendingSourceCharacter - g.lastSourceCharacter))
    rw [written, Outcome.bind_ok, written', Outcome.bind_ok, written'', Outcome.bind_ok]
    split
    · exact appendBase64Vlq_returns _ _
    · exact ⟨third, rfl⟩
  · exact ⟨mappings, rfl⟩

theorem committedText_returns {g : Generator} (forward : g.lastGeneratedLine ≤ g.pendingGeneratedLine) :
    ∃ text, g.committedText = .ok text := by
  have separated : ∃ text, g.separatedText = .ok text := by
    unfold separatedText
    split
    · exact ⟨_, rfl⟩
    · rw [if_neg (not_not.mpr (by omega))]
      exact ⟨_, rfl⟩
  obtain ⟨first, written⟩ := separated
  obtain ⟨second, written'⟩ := appendBase64Vlq_returns first (i32 (g.pendingGeneratedCharacter - g.characterBefore))
  unfold committedText
  rw [written, Outcome.bind_ok, written', Outcome.bind_ok]
  exact g.sourceText_returns second

section
variable {g : Generator}

/-- Pending fields without a value still are the ones last committed. -/
structure Lagging (g : Generator) : Prop where
  idle : g.hasPending = false → g.hasPendingSource = false ∧ g.hasPendingName = false
  forward : g.lastGeneratedLine ≤ g.pendingGeneratedLine
  named : g.hasPendingName = true → g.hasPendingSource = true
  source : g.hasPendingSource = false → g.pendingSourceIndex = g.lastSourceIndex ∧
    g.pendingSourceLine = g.lastSourceLine ∧ g.pendingSourceCharacter = g.lastSourceCharacter
  name : g.hasPendingName = false → g.pendingNameIndex = g.lastNameIndex

theorem newGenerator_lagging (file sourceRoot : String) (relative : String → String) :
    (newGenerator file sourceRoot relative).Lagging :=
  ⟨fun _ => ⟨rfl, rfl⟩, le_rfl, fun named => named, fun _ => ⟨rfl, rfl, rfl⟩, fun _ => rfl⟩

structure Settled (g : Generator) : Prop where
  lagging : g.Lagging
  values : g.hasPending = true → g.hasLast = true ∧ g.lastGeneratedLine = g.pendingGeneratedLine ∧
    g.lastGeneratedCharacter = g.pendingGeneratedCharacter ∧ g.lastSourceIndex = g.pendingSourceIndex ∧
    g.lastSourceLine = g.pendingSourceLine ∧ g.lastSourceCharacter = g.pendingSourceCharacter ∧
    g.lastNameIndex = g.pendingNameIndex

theorem shouldCommitMapping_eq_false : g.shouldCommitMapping = false ↔
    (g.hasPending = true → g.hasLast = true ∧ g.lastGeneratedLine = g.pendingGeneratedLine ∧
      g.lastGeneratedCharacter = g.pendingGeneratedCharacter ∧ g.lastSourceIndex = g.pendingSourceIndex ∧
      g.lastSourceLine = g.pendingSourceLine ∧ g.lastSourceCharacter = g.pendingSourceCharacter ∧
      g.lastNameIndex = g.pendingNameIndex) := by
  unfold shouldCommitMapping
  cases g.hasPending with
  | false => simp
  | true => simp [and_assoc]

theorem Lagging.settled (lagging : g.Lagging) (mappings : String) : (g.withRunning g.committedValues mappings).Settled := by
  have values : g.committedValues.sourceIndex = g.pendingSourceIndex ∧
      g.committedValues.sourceLine = g.pendingSourceLine ∧
      g.committedValues.sourceCharacter = g.pendingSourceCharacter := by
    unfold committedValues
    cases source : g.hasPendingSource with
    | true => exact ⟨rfl, rfl, rfl⟩
    | false =>
      obtain ⟨index, line, character⟩ := lagging.source source
      exact ⟨index.symm, line.symm, character.symm⟩
  have name : g.committedValues.nameIndex = g.pendingNameIndex := by
    unfold committedValues
    cases named : g.hasPendingName with
    | false =>
      rw [Bool.and_false, if_neg Bool.false_ne_true]
      exact (lagging.name named).symm
    | true => simp [lagging.named named]
  obtain ⟨index, line, character⟩ := values
  refine ⟨⟨lagging.idle, le_rfl, lagging.named, ?_, ?_⟩, ?_⟩
  · exact fun _ => ⟨index.symm, line.symm, character.symm⟩
  · exact fun _ => name.symm
  · exact fun _ => ⟨rfl, rfl, rfl, index, line, character, name⟩

theorem Lagging.commit (lagging : g.Lagging) : ∃ g', g.commitPendingMapping = .ok g' ∧ g'.Settled ∧
      (g' = g ∨ (g.shouldCommitMapping = true ∧ ∃ mappings, g' = g.withRunning g.committedValues mappings)) := by
  rw [commitPendingMapping_eq]
  cases should : g.shouldCommitMapping with
  | false => exact ⟨g, rfl, ⟨lagging, shouldCommitMapping_eq_false.mp should⟩, .inl rfl⟩
  | true =>
    obtain ⟨text, written⟩ := committedText_returns lagging.forward
    rw [if_pos rfl, written]
    exact ⟨_, rfl, lagging.settled text, .inr ⟨rfl, text, rfl⟩⟩

theorem Settled.commit (settled : g.Settled) : g.commitPendingMapping = .ok g := by
  rw [commitPendingMapping_eq, shouldCommitMapping_eq_false.mpr settled.values]
  rfl
end

/-- The tables of sources and names, which a commit neither reads nor changes. -/
structure Tables where
  sources : List String
  sourceMapSources : List String
  sourceToSourceIndexMap : HashMap String Int
  names : List String
  nameToNameIndexMap : HashMap String Int

def withTables (g : Generator) (t : Tables) : Generator :=
  { g with
    sources := t.sources
    sourceMapSources := t.sourceMapSources
    sourceToSourceIndexMap := t.sourceToSourceIndexMap
    names := t.names
    nameToNameIndexMap := t.nameToNameIndexMap }

theorem commit_withTables {g h : Generator} (t : Tables) (commit : h.commitPendingMapping = .ok g) :
    (h.withTables t).commitPendingMapping = .ok (g.withTables t) := by
  have should : (h.withTables t).shouldCommitMapping = h.shouldCommitMapping := rfl
  have text : (h.withTables t).committedText = h.committedText := rfl
  rw [commitPendingMapping_eq] at commit ⊢
  rw [should, text]
  cases shape : h.shouldCommitMapping with
  | false =>
    rw [shape, if_neg Bool.false_ne_true] at commit
    rw [if_neg Bool.false_ne_true, Outcome.ok.inj commit]
  | true =>
    rw [shape, if_pos rfl] at commit
    obtain ⟨mappings, written, same⟩ := Outcome.bind_eq_ok commit
    rw [if_pos rfl, written, ← Outcome.ok.inj same]
    rfl

theorem run_tables {c : Call} (none : c.mapping = none) (g : Generator) :
    ∃ t, ∀ r mappings, c.run (g.withRunning r mappings) = .ok ((g.withRunning r mappings).withTables t) ∧
      c.run g = .ok (g.withTables t) := by
  cases c with
  | addSource fileName =>
    cases found : g.sourceToSourceIndexMap.lookup (g.relativeToSourcesDirectory fileName) with
    | none =>
      refine ⟨⟨g.sources ++ [fileName], g.sourceMapSources ++ [g.relativeToSourcesDirectory fileName],
        g.sourceToSourceIndexMap.insert (g.relativeToSourcesDirectory fileName) (i32 g.sourceMapSources.length),
        g.names, g.nameToNameIndexMap⟩, ?_⟩
      simp [Call.run, addSource, found, withRunning, withTables]
    | some index =>
      refine ⟨⟨g.sources, g.sourceMapSources, g.sourceToSourceIndexMap, g.names, g.nameToNameIndexMap⟩, ?_⟩
      simp [Call.run, addSource, found, withRunning, withTables]
  | addName name =>
    cases found : g.nameToNameIndexMap.lookup name with
    | none =>
      refine ⟨⟨g.sources, g.sourceMapSources, g.sourceToSourceIndexMap, g.names ++ [name],
        g.nameToNameIndexMap.insert name (i32 g.names.length)⟩, ?_⟩
      simp [Call.run, addName, found, withRunning, withTables]
    | some index =>
      refine ⟨⟨g.sources, g.sourceMapSources, g.sourceToSourceIndexMap, g.names, g.nameToNameIndexMap⟩, ?_⟩
      simp [Call.run, addName, found, withRunning, withTables]
  | addGeneratedMapping => cases none
  | addSourceMapping => cases none
  | addNamedSourceMapping => cases none

section
variable {g h : Generator} {m : Mapping}

def add (g : Generator) (m : Mapping) : Outcome Generator :=
  g.addMapping m.generatedLine m.generatedCharacter m.sourceIndex m.sourceLine m.sourceCharacter m.nameIndex

def setPending (g : Generator) (m : Mapping) : Generator :=
  g.setPendingSource m.sourceIndex m.sourceLine m.sourceCharacter m.nameIndex

theorem add_eq (g : Generator) (m : Mapping) : g.add m =
    if g.opens m then
      g.commitPendingMapping.bind fun g =>
        .ok ((g.startPending m.generatedLine m.generatedCharacter).setPending m)
    else .ok (g.setPending m) := rfl

/-- A source position without a hole: all of it is given, or nothing. -/
def Whole (m : Mapping) : Prop :=
  (m.sourceIndex = sourceIndexNotSet ∧ m.nameIndex = nameIndexNotSet) ∨
    (m.sourceIndex ≠ sourceIndexNotSet ∧ m.sourceLine ≠ notSet ∧ m.sourceCharacter ≠ notSet)

theorem setPending_of_repeats (whole : Whole m) (repeats : g.repeats m = true) : g.setPending m = g := by
  unfold setPending setPendingSource
  rcases whole with ⟨none, -⟩ | ⟨index, line, character⟩
  · rw [if_neg (fun all => all.1 none)]
  rw [if_pos ⟨index, line, character⟩]
  unfold Generator.repeats at repeats
  simp only [Bool.or_eq_true, Bool.and_eq_true, beq_iff_eq] at repeats
  have pending := repeats.resolve_left index
  cases g
  cases m
  obtain ⟨⟨⟨⟨rfl, rfl⟩, rfl⟩, rfl⟩, rfl | ⟨rfl, rfl⟩⟩ := pending
  · rfl
  · split
    · rfl
    · rfl

/-- A call that adds a mapping checks its fields first, and the same whether or not the
pending mapping is written. -/
theorem run_mapping {c : Call} (mapped : c.mapping = some m) (g : Generator) :
    ∃ check : Outcome Unit, (check = .ok () ∧ g.pendingGeneratedLine ≤ m.generatedLine ∧ Whole m ∨
        ∃ message, check = .err message) ∧ c.run g = (check.bind fun _ => g.add m) ∧
      ∀ r mappings, c.run (g.withRunning r mappings) = check.bind fun _ => (g.withRunning r mappings).add m := by
  have notSet_neg : notSet < 0 := by decide
  have index_neg : sourceIndexNotSet < 0 := by decide
  cases c with
  | addSource => cases mapped
  | addName => cases mapped
  | addGeneratedMapping gl gc =>
    cases mapped
    by_cases back : gl < g.pendingGeneratedLine
    · exact ⟨.err "generatedLine cannot backtrack", .inr ⟨_, rfl⟩, if_pos back, fun _ _ => if_pos back⟩
    by_cases negative : gc < 0
    · exact ⟨.err "generatedCharacter cannot be negative", .inr ⟨_, rfl⟩, (if_neg back).trans (if_pos negative),
        fun _ _ => (if_neg back).trans (if_pos negative)⟩
    · exact ⟨.ok (), .inl ⟨rfl, Int.not_lt.mp back, .inl ⟨rfl, rfl⟩⟩, (if_neg back).trans (if_neg negative),
        fun _ _ => (if_neg back).trans (if_neg negative)⟩
  | addSourceMapping gl gc si sl sc =>
    cases mapped
    refine ⟨g.validateSourceMappingArgs gl gc si sl sc, ?_, rfl, fun _ _ => rfl⟩
    rcases validateSourceMappingArgs_cases g gl gc si sl sc with ⟨checked, onward, -, index, line, character⟩ | refused
    · refine .inl ⟨checked, onward, .inr ⟨?_, ?_, ?_⟩⟩
      · exact fun same => absurd (same ▸ index) (Int.not_le.mpr index_neg)
      · exact fun same => absurd (same ▸ line) (Int.not_le.mpr notSet_neg)
      · exact fun same => absurd (same ▸ character) (Int.not_le.mpr notSet_neg)
    · exact .inr refused
  | addNamedSourceMapping gl gc si sl sc ni =>
    cases mapped
    let check : Outcome Unit := (g.validateSourceMappingArgs gl gc si sl sc).bind fun _ =>
      if ni < 0 ∨ (g.names.length : Int) ≤ ni then .err "nameIndex is out of range" else .ok ()
    have named : ∀ outcome : Outcome Generator,
        ((g.validateSourceMappingArgs gl gc si sl sc).bind fun _ =>
          if ni < 0 ∨ (g.names.length : Int) ≤ ni then .err "nameIndex is out of range" else outcome) =
          check.bind fun _ => outcome := by
      intro outcome
      rw [bind_bind]
      split
      · rfl
      · rfl
    refine ⟨check, ?_, named _, fun _ _ => named _⟩
    rcases validateSourceMappingArgs_cases g gl gc si sl sc with
      ⟨checked, onward, -, index, line, character⟩ | ⟨message, refused⟩
    · unfold check
      rw [checked, Outcome.bind_ok]
      split
      · exact .inr ⟨_, rfl⟩
      · refine .inl ⟨rfl, onward, .inr ⟨?_, ?_, ?_⟩⟩
        · exact fun same => absurd (same ▸ index) (Int.not_le.mpr index_neg)
        · exact fun same => absurd (same ▸ line) (Int.not_le.mpr notSet_neg)
        · exact fun same => absurd (same ▸ character) (Int.not_le.mpr notSet_neg)
    · exact .inr ⟨message, by unfold check; rw [refused]; rfl⟩

theorem Lagging.setPending (lagging : g.Lagging) (pending : g.hasPending = true) (m : Mapping) : (g.setPending m).Lagging := by
  have idle : g.hasPending = false → False := fun none => by rw [pending] at none; cases none
  unfold Generator.setPending setPendingSource
  split
  · split
    · exact ⟨fun none => (idle none).elim, lagging.forward, fun _ => rfl, by rintro ⟨⟩, by rintro ⟨⟩⟩
    · exact ⟨fun none => (idle none).elim, lagging.forward, fun _ => rfl, by rintro ⟨⟩, lagging.name⟩
  · exact lagging

theorem Settled.startPending (settled : g.Settled) {line character : Int} (onward : g.pendingGeneratedLine ≤ line) :
    (g.startPending line character).Lagging := by
  have forward : g.lastGeneratedLine ≤ line := settled.lagging.forward.trans onward
  cases pending : g.hasPending with
  | true =>
    obtain ⟨-, -, -, index, sourceLine, sourceCharacter, name⟩ := settled.values pending
    exact ⟨by rintro ⟨⟩, forward, by rintro ⟨⟩, fun _ => ⟨index.symm, sourceLine.symm, sourceCharacter.symm⟩,
      fun _ => name.symm⟩
  | false =>
    obtain ⟨noSource, noName⟩ := settled.lagging.idle pending
    exact ⟨by rintro ⟨⟩, forward, by rintro ⟨⟩, fun _ => settled.lagging.source noSource,
      fun _ => settled.lagging.name noName⟩
end

variable {c : Call} {g' : Generator} {message : String}

/-- A generator beside one that has not been serialised: the same, or its pending mapping is
written already. -/
structure Ahead (written : Bool) (g h : Generator) : Prop where
  lagging : h.Lagging
  same : g = h ∨ (written = true ∧ h.commitPendingMapping = .ok g ∧ g.Settled ∧ ∃ r mappings, g = h.withRunning r mappings)

variable {g h : Generator} {written : Bool}

theorem Ahead.refl (lagging : g.Lagging) (written : Bool) : Ahead written g g := ⟨lagging, .inl rfl⟩

theorem Ahead.commit (ahead : Ahead written g h) :
    ∃ g', g.commitPendingMapping = .ok g' ∧ h.commitPendingMapping = .ok g' ∧ g'.Settled ∧
      g'.pendingGeneratedLine = h.pendingGeneratedLine := by
  rcases ahead.same with rfl | ⟨-, commit, settled, r, mappings, shape⟩
  · obtain ⟨g', commit, settled, rfl | ⟨-, mappings, rfl⟩⟩ := ahead.lagging.commit
    · exact ⟨g', commit, commit, settled, rfl⟩
    · exact ⟨_, commit, commit, settled, rfl⟩
  · exact ⟨g, settled.commit, commit, settled, by rw [shape]; rfl⟩

theorem Ahead.serialise (ahead : Ahead written g h) :
    ∃ g', g.step .serialise = .ok g' ∧ Ahead (written || g.shouldCommitMapping) g' h := by
  rcases ahead.same with rfl | ⟨rfl, commit, settled, shape⟩
  · obtain ⟨g', commit, settled, rfl | ⟨should, mappings, shape⟩⟩ := ahead.lagging.commit
    · exact ⟨g', by rw [step, rawSourceMap, commit]; rfl, .refl ahead.lagging _⟩
    · refine ⟨g', by rw [step, rawSourceMap, commit]; rfl, ahead.lagging, .inr ⟨?_, commit, settled, _, mappings, shape⟩⟩
      rw [should, Bool.or_true]
  · exact ⟨g, by rw [step, rawSourceMap, settled.commit]; rfl, ahead.lagging,
      .inr ⟨Bool.true_or _, commit, settled, shape⟩⟩

theorem step_of_ok (run : c.run g = .ok g') : g.step (.call c) = .ok g' := by
  rw [step, run]

theorem step_of_err (run : c.run g = .err message) : g.step (.call c) = .ok g := by
  rw [step, run]

theorem isAccepted_of_ok (run : c.run g = .ok g') : c.isAccepted g = true := by
  rw [Call.isAccepted, run]

theorem isAccepted_of_err (run : c.run g = .err message) : c.isAccepted g = false := by
  rw [Call.isAccepted, run]

theorem Lagging.withTables (lagging : g.Lagging) (t : Tables) : (g.withTables t).Lagging :=
  ⟨lagging.idle, lagging.forward, lagging.named, lagging.source, lagging.name⟩

variable (ahead : Ahead written g h)
include ahead

theorem Ahead.tables (none : c.mapping = none) :
    ∃ g' h', g.step (.call c) = .ok g' ∧ h.step (.call c) = .ok h' ∧ Ahead written g' h' := by
  obtain ⟨t, both⟩ := run_tables none h
  have run : c.run h = .ok (h.withTables t) := (both h.committedValues "").2
  rcases ahead.same with rfl | ⟨rfl, commit, settled, r, mappings, rfl⟩
  · exact ⟨_, _, step_of_ok run, step_of_ok run, .refl (ahead.lagging.withTables t) written⟩
  · refine ⟨_, _, step_of_ok (both r mappings).1, step_of_ok run, ahead.lagging.withTables t, .inr ⟨rfl, ?_, ?_, ?_⟩⟩
    · exact commit_withTables t commit
    · exact ⟨settled.lagging.withTables t, settled.values⟩
    · exact ⟨r, mappings, rfl⟩

theorem Ahead.opens_eq (m : Mapping) : h.opens m = g.opens m := by
  rcases ahead.same with rfl | ⟨-, -, -, r, mappings, rfl⟩
  · rfl
  · rfl

theorem Ahead.repeats_eq (m : Mapping) : h.repeats m = g.repeats m := by
  rcases ahead.same with rfl | ⟨-, -, -, r, mappings, rfl⟩
  · rfl
  · rfl

theorem Ahead.add {m : Mapping} (whole : Whole m) (onward : h.pendingGeneratedLine ≤ m.generatedLine)
    (keeps : written = true → g.opens m = false → g.repeats m = true) :
    ∃ g' h', g.add m = .ok g' ∧ h.add m = .ok h' ∧ Ahead (written && !g.opens m) g' h' := by
  rw [add_eq, add_eq, ahead.opens_eq]
  cases opens : g.opens m with
  | true =>
    obtain ⟨g₁, commit, commit', settled, line⟩ := ahead.commit
    rw [if_pos rfl, if_pos rfl, commit, commit']
    refine ⟨_, _, rfl, rfl, .refl (Lagging.setPending ?_ rfl m) _⟩
    exact settled.startPending (line ▸ onward)
  | false =>
    refine ⟨_, _, rfl, rfl, ?_⟩
    have pending : h.hasPending = true := by
      have none : h.opens m = false := (ahead.opens_eq m).trans opens
      unfold Generator.opens isNewGeneratedPosition at none
      simp only [Bool.or_eq_false_iff, Bool.not_eq_false'] at none
      exact none.1.1.1
    cases written with
    | false =>
      rcases ahead.same with rfl | ⟨⟨⟩, -⟩
      exact .refl (ahead.lagging.setPending pending m) false
    | true =>
      have repeats := keeps rfl opens
      rw [setPending_of_repeats whole repeats, setPending_of_repeats whole ((ahead.repeats_eq m).trans repeats)]
      exact ahead

theorem Ahead.call (keeps : (written && c.amends g) = false) :
    ∃ g' h', g.step (.call c) = .ok g' ∧ h.step (.call c) = .ok h' ∧ Ahead (written && !c.opens g) g' h' := by
  cases mapped : c.mapping with
  | none =>
    have stays : c.opens g = false := by simp [Call.opens, mapped]
    rw [stays, Bool.not_false, Bool.and_true]
    exact ahead.tables mapped
  | some m =>
    obtain ⟨check, checked, run, runs⟩ := run_mapping mapped h
    have run' : c.run g = check.bind fun _ => g.add m := by
      rcases ahead.same with rfl | ⟨-, -, -, r, mappings, rfl⟩
      · exact run
      · exact runs r mappings
    rcases checked with ⟨rfl, onward, whole⟩ | ⟨message, rfl⟩
    · have kept : written = true → g.opens m = false → g.repeats m = true := by
        rintro rfl opens
        by_contra changes
        have accepted : c.isAccepted g = true := by
          rw [Call.isAccepted, run', Outcome.bind_ok, add_eq, opens, if_neg Bool.false_ne_true]
        simp [Call.amends, mapped, accepted, opens, changes] at keeps
      obtain ⟨g', h', added, added', next⟩ := ahead.add whole onward kept
      have opens : c.opens g = g.opens m := by
        simp [Call.opens, mapped, isAccepted_of_ok (run'.trans added)]
      rw [opens]
      exact ⟨g', h', step_of_ok (run'.trans added), step_of_ok (run.trans added'), next⟩
    · have stays : c.opens g = false := by simp [Call.opens, isAccepted_of_err run']
      rw [stays, Bool.not_false, Bool.and_true]
      exact ⟨g, h, step_of_err run', step_of_err run, ahead⟩

theorem Ahead.finalMap {events : List Event} (silent : quiet written g events = true) :
    SourceMap.finalMap g events = SourceMap.finalMap h (events.filter Event.isCall) := by
  induction events generalizing written g h with
  | nil =>
    obtain ⟨g', commit, commit', -⟩ := ahead.commit
    rw [List.filter_nil]
    unfold SourceMap.finalMap runEvents rawSourceMap
    simp only [Outcome.bind_ok, commit, commit']
  | cons event rest ih =>
    cases event with
    | serialise =>
      obtain ⟨g', stepped, next⟩ := ahead.serialise
      rw [quiet, stepped] at silent
      have final : SourceMap.finalMap g (.serialise :: rest) = SourceMap.finalMap g' rest := by
        rw [SourceMap.finalMap, runEvents, stepped, Outcome.bind_ok]
        rfl
      rw [final, ih next silent]
      rfl
    | call c =>
      rw [quiet, Bool.and_eq_true, Bool.not_eq_true'] at silent
      obtain ⟨g', h', stepped, stepped', next⟩ := ahead.call silent.1
      have silent' := silent.2
      rw [stepped] at silent'
      have final : SourceMap.finalMap g (.call c :: rest) = SourceMap.finalMap g' rest := by
        rw [SourceMap.finalMap, runEvents, stepped, Outcome.bind_ok]
        rfl
      have final' : SourceMap.finalMap h (.call c :: rest.filter Event.isCall) =
          SourceMap.finalMap h' (rest.filter Event.isCall) := by
        rw [SourceMap.finalMap, runEvents, stepped', Outcome.bind_ok]
        rfl
      rw [final, ih next silent']
      exact final'.symm

end Generator

/-- As long as no addition changes in place a mapping that a serialising call has written,
these calls do not show in the final source map. -/
theorem finalMap_quiet (file sourceRoot : String) (relative : String → String) (events : List Event)
    (silent : quiet false (newGenerator file sourceRoot relative) events = true) :
    finalMap (newGenerator file sourceRoot relative) events =
      finalMap (newGenerator file sourceRoot relative) (events.filter Event.isCall) :=
  (Generator.Ahead.refl (Generator.newGenerator_lagging file sourceRoot relative) false).finalMap silent

/-- A source, two mappings, and a serialising call between them. -/
def quietEvents : List Event :=
  [.call (.addSource "a.ts"), .call (.addSourceMapping 0 0 0 0 0), .serialise, .call (.addSourceMapping 0 4 0 0 2)]

theorem finalMap_quiet_between : quiet false (newGenerator "out.js" "" id) quietEvents = true ∧
    finalMap (newGenerator "out.js" "" id) quietEvents =
      finalMap (newGenerator "out.js" "" id) (quietEvents.filter Event.isCall) :=
  ⟨by decide, finalMap_quiet "out.js" "" id quietEvents (by decide)⟩

/-- A generated mapping that gets its source after a serialising call. -/
def loudEvents : List Event :=
  [.call (.addSource "a.ts"), .call (.addGeneratedMapping 0 0), .serialise, .call (.addSourceMapping 0 0 0 0 0)]

theorem serialise_dropsSource :
    ∃ raw raw', finalMap (newGenerator "out.js" "" id) loudEvents = .ok raw ∧
      finalMap (newGenerator "out.js" "" id) (loudEvents.filter Event.isCall) = .ok raw' ∧
      (decodeMappings raw.mappings).collectAll.1 = [⟨0, 0, -1, -1, -1, -1⟩] ∧
      (decodeMappings raw'.mappings).collectAll.1 = [⟨0, 0, 0, 0, 0, -1⟩] :=
  ⟨_, _, rfl, rfl, by decide, by decide⟩

end TypeScriptRs.SourceMap
