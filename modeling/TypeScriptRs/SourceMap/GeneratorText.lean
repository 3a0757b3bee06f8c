import TypeScriptRs.SourceMap.Encoding

/-! The generator writes the encoding of the mappings it commits, and never aborts. -/
namespace TypeScriptRs.SourceMap
open Machine

variable {g : Generator} {ms : List Mapping}

namespace Generator

variable {g : Generator} {ms : List Mapping} {sourceIndex sourceLine sourceCharacter nameIndex : Int}

def running (g : Generator) : Running :=
  ⟨g.lastGeneratedLine, g.lastGeneratedCharacter, g.lastSourceIndex, g.lastSourceLine,
    g.lastSourceCharacter, g.lastNameIndex⟩

def withRunning (g : Generator) (r : Running) (mappings : String) : Generator :=
  { g with
    mappings := mappings
    lastGeneratedLine := r.line
    lastGeneratedCharacter := r.character
    lastSourceIndex := r.sourceIndex
    lastSourceLine := r.sourceLine
    lastSourceCharacter := r.sourceCharacter
    lastNameIndex := r.nameIndex
    hasLast := true }

def pendingMapping (g : Generator) : Mapping where
  generatedLine := g.pendingGeneratedLine
  generatedCharacter := g.pendingGeneratedCharacter
  sourceIndex := if g.hasPendingSource then g.pendingSourceIndex else missingSource
  sourceLine := if g.hasPendingSource then g.pendingSourceLine else missingLineOrColumn
  sourceCharacter := if g.hasPendingSource then g.pendingSourceCharacter else missingLineOrColumn
  nameIndex := if g.hasPendingSource && g.hasPendingName then g.pendingNameIndex else missingName

/-- The mapping that committing the pending one writes, if any. -/
def committed (g : Generator) : List Mapping :=
  if g.shouldCommitMapping then [g.pendingMapping] else []

structure PendingRanged (g : Generator) : Prop where
  line : InRange g.pendingGeneratedLine
  character : InRange g.pendingGeneratedCharacter
  sourceIndex : InRange g.pendingSourceIndex
  sourceLine : InRange g.pendingSourceLine
  sourceCharacter : InRange g.pendingSourceCharacter
  nameIndex : InRange g.pendingNameIndex

theorem pendingMapping_complete (h : g.PendingRanged) : g.pendingMapping.Complete := by
  have present : g.pendingSourceIndex ≠ missingSource := by
    have := h.sourceIndex.1
    unfold missingSource
    omega
  refine ⟨h.line, h.character, ?_, ?_, ?_⟩
  · intro hs
    cases source : g.hasPendingSource with
    | true => exact absurd (by simpa [pendingMapping, source] using hs) present
    | false => simp [pendingMapping, source]
  · intro hs
    cases source : g.hasPendingSource with
    | true => simpa [pendingMapping, source] using ⟨h.sourceIndex, h.sourceLine, h.sourceCharacter⟩
    | false => exact absurd (by simp [pendingMapping, source]) hs
  · intro hn
    cases named : (g.hasPendingSource && g.hasPendingName) with
    | true => simpa [pendingMapping, named] using h.nameIndex
    | false => exact absurd (by simp [pendingMapping, named]) hn

theorem appendLines_text (mappings : String) (count : Nat) :
    (appendLines mappings count).toList = mappings.toList ++ List.replicate count ';' := by
  induction count generalizing mappings with
  | zero => simp [appendLines]
  | succ count ih => simp [appendLines, ih, List.replicate_succ]

theorem appendDelta_text (mappings : String) {new old : Int} (hn : InRange new) (ho : InRange old) :
    ∃ written, appendBase64Vlq mappings (i32 (new - old)) = .ok written ∧
      written.toList = mappings.toList ++ vlqText (new - old) := by
  obtain ⟨hn0, hn1⟩ := hn
  obtain ⟨ho0, ho1⟩ := ho
  rw [i32_of_range (by norm_num at *; omega) (by norm_num at *; omega)]
  exact appendBase64Vlq_text mappings (new - old) (by norm_num at *; omega) (by norm_num at *; omega)

theorem openLine_spec (forward : g.lastGeneratedLine ≤ g.pendingGeneratedLine) :
    ∃ text : String, text.toList = g.mappings.toList ++
        g.running.separators g.hasLast g.pendingGeneratedLine ∧
      g.openLine = .ok { g with
        mappings := text
        lastGeneratedLine := g.pendingGeneratedLine
        lastGeneratedCharacter := (g.running.atLine g.pendingGeneratedLine).character } := by
  by_cases later : g.lastGeneratedLine < g.pendingGeneratedLine
  · refine ⟨appendLines g.mappings (g.pendingGeneratedLine - g.lastGeneratedLine).toNat, ?_, ?_⟩
    · simp [appendLines_text, Running.separators, running, later]
    · simp [openLine, later, Running.atLine, running]
  have same : g.lastGeneratedLine = g.pendingGeneratedLine := by omega
  cases hasLast : g.hasLast with
  | true =>
    refine ⟨g.mappings.push ',', ?_, ?_⟩
    · simp [Running.separators, running, same]
    · simp [openLine, Running.atLine, running, same, hasLast]
  | false =>
    refine ⟨g.mappings, ?_, ?_⟩
    · simp [Running.separators, running, same]
    · cases g
      simp_all [openLine, Running.atLine, running]

theorem appendSource_spec (last : g.running.Ranged) (pending : g.PendingRanged) :
    ∃ text : String, text.toList = g.mappings.toList ++
        (vlqText (g.pendingSourceIndex - g.lastSourceIndex) ++
        vlqText (g.pendingSourceLine - g.lastSourceLine) ++
        vlqText (g.pendingSourceCharacter - g.lastSourceCharacter) ++
        (if g.hasPendingName then vlqText (g.pendingNameIndex - g.lastNameIndex) else [])) ∧
      g.appendSource = .ok { g with
        mappings := text
        lastSourceIndex := g.pendingSourceIndex
        lastSourceLine := g.pendingSourceLine
        lastSourceCharacter := g.pendingSourceCharacter
        lastNameIndex := if g.hasPendingName then g.pendingNameIndex else g.lastNameIndex } := by
  obtain ⟨t₁, h₁, e₁⟩ := appendDelta_text g.mappings pending.sourceIndex last.sourceIndex
  obtain ⟨t₂, h₂, e₂⟩ := appendDelta_text t₁ pending.sourceLine last.sourceLine
  obtain ⟨t₃, h₃, e₃⟩ := appendDelta_text t₂ pending.sourceCharacter last.sourceCharacter
  obtain ⟨t₄, h₄, e₄⟩ := appendDelta_text t₃ pending.nameIndex last.nameIndex
  simp only [running] at h₁ e₁ h₂ e₂ h₃ e₃ h₄ e₄
  cases name : g.hasPendingName with
  | true =>
    refine ⟨t₄, by simp [e₄, e₃, e₂, e₁], ?_⟩
    simp [appendSource, h₁, h₂, h₃, h₄, name]
  | false =>
    refine ⟨t₃, by simp [e₃, e₂, e₁], ?_⟩
    simp [appendSource, h₁, h₂, h₃, name]

/-- A commit writes exactly the encoding of the pending mapping. In particular it
does not abort: the generated line never goes back. -/
theorem commitPendingMapping_spec (last : g.running.Ranged)
    (pending : g.PendingRanged) (forward : g.lastGeneratedLine ≤ g.pendingGeneratedLine)
    (should : g.shouldCommitMapping = true) : ∃ text : String, text.toList = g.mappings.toList ++
        g.running.encodeOne g.hasLast g.pendingMapping ∧
      g.commitPendingMapping = .ok (g.withRunning (g.running.after g.pendingMapping) text) := by
  have present : g.pendingSourceIndex ≠ missingSource := by
    have := pending.sourceIndex.1
    unfold missingSource
    omega
  have named : g.pendingNameIndex ≠ missingName := by
    have := pending.nameIndex.1
    unfold missingName
    omega
  have opened := ranged_atLine last pending.line
  obtain ⟨t₀, h₀, e₀⟩ := openLine_spec forward
  obtain ⟨t₁, h₁, e₁⟩ := appendDelta_text t₀ pending.character opened.character
  cases source : g.hasPendingSource with
  | false =>
    refine ⟨t₁, ?_, ?_⟩
    · simp [Running.encodeOne, Running.segment, pendingMapping, source, e₁, h₀]
    · simp only [commitPendingMapping, should, e₀, h₁, source, Outcome.bind_ok]
      simp [withRunning, Running.after, pendingMapping, running, source]
  | true =>
    let written : Generator := { g with
      mappings := t₁
      lastGeneratedLine := g.pendingGeneratedLine
      lastGeneratedCharacter := g.pendingGeneratedCharacter }
    obtain ⟨t₂, h₂, e₂⟩ := appendSource_spec (g := written)
      { last with line := pending.line, character := pending.character }
      { pending with }
    refine ⟨t₂, ?_, ?_⟩
    · rw [h₂]
      cases name : g.hasPendingName <;>
        simp [Running.encodeOne, Running.segment, pendingMapping, source, name, present, named, e₁, h₀,
          written, running]
    have chain : g.commitPendingMapping =
        written.appendSource.bind fun g => .ok { g with hasLast := true } := by
      simp only [commitPendingMapping, should, e₀, h₁, Outcome.bind_ok, Bool.not_true,
        Bool.false_eq_true, if_false]
      exact congrArg (fun x => Outcome.bind x _) (if_pos source)
    rw [chain, e₂, Outcome.bind_ok]
    cases name : g.hasPendingName <;>
      simp [written, withRunning, Running.after, pendingMapping, source, name, present, named, running]

/-- The text so far is the encoding of the mappings committed so far, and the
running values are the ones that encoding ends with. -/
structure Writes (g : Generator) (ms : List Mapping) : Prop where
  text : g.mappings.toList = Running.start.encode false ms
  running : g.running = Running.start.afterAll ms
  hasLast : g.hasLast = !ms.isEmpty
  forward : g.lastGeneratedLine ≤ g.pendingGeneratedLine
  last : g.running.Ranged
  pending : g.PendingRanged
  encodable : Encodable Running.start ms

theorem newGenerator_writes (file sourceRoot : String) (relative : String → String) :
    (newGenerator file sourceRoot relative).Writes [] := by
  have zero : InRange 0 := ⟨le_refl _, by norm_num⟩
  exact ⟨rfl, rfl, rfl, le_refl _, Running.start_ranged,
    ⟨zero, zero, zero, zero, zero, zero⟩, trivial⟩

theorem commitPendingMapping_writes (h : g.Writes ms) : ∃ g', g.commitPendingMapping = .ok g' ∧ g'.Writes (ms ++ g.committed) ∧
      g'.pendingGeneratedLine = g.pendingGeneratedLine := by
  cases should : g.shouldCommitMapping with
  | false => exact ⟨g, by simp [commitPendingMapping, should], by simpa [committed, should] using h, rfl⟩
  | true =>
    obtain ⟨text, ht, hc⟩ := commitPendingMapping_spec h.last h.pending h.forward should
    have complete := pendingMapping_complete h.pending
    refine ⟨_, hc, ?_, rfl⟩
    have line : (g.running.after g.pendingMapping).line = g.pendingGeneratedLine := by
      unfold Running.after
      split <;> rfl
    rw [committed, if_pos should]
    refine ⟨?_, ?_, ?_, le_of_eq line, ranged_after h.last complete, { h.pending with }, ?_⟩
    · rw [Running.encode_append, ← h.text, ← h.running, Bool.false_or, ← h.hasLast]
      exact ht
    · rw [Running.afterAll_append, ← h.running]
      rfl
    · cases ms <;> rfl
    · exact encodable_append h.encodable complete (h.running ▸ h.forward)

/-- A generated mapping carries no source, and a source mapping all three fields. -/
def SourceArgs (sourceIndex sourceLine sourceCharacter nameIndex : Int) : Prop :=
  (sourceIndex = sourceIndexNotSet ∧ sourceLine = notSet ∧ sourceCharacter = notSet) ∨
  (InRange sourceIndex ∧ InRange sourceLine ∧ InRange sourceCharacter ∧
    (nameIndex = nameIndexNotSet ∨ InRange nameIndex))

theorem setPendingSource_writes (h : g.Writes ms) (args : SourceArgs sourceIndex sourceLine sourceCharacter nameIndex) :
    (g.setPendingSource sourceIndex sourceLine sourceCharacter nameIndex).Writes ms := by
  unfold setPendingSource
  split
  · rename_i set
    rcases args with absent | ⟨hi, hl, hc, hn⟩
    · exact absurd absent.1 set.1
    dsimp only
    split
    · rename_i named
      rcases hn with hn | hn
      · exact absurd hn named
      · exact { h with pending := ⟨h.pending.line, h.pending.character, hi, hl, hc, hn⟩ }
    · exact { h with pending := ⟨h.pending.line, h.pending.character, hi, hl, hc, h.pending.nameIndex⟩ }
  · exact h

def addMappingCommits (g : Generator)
    (generatedLine generatedCharacter sourceIndex sourceLine sourceCharacter : Int) : List Mapping :=
  if g.isNewGeneratedPosition generatedLine generatedCharacter
      || g.isBacktrackingSourcePosition sourceIndex sourceLine sourceCharacter then g.committed
  else []

theorem addMapping_writes (h : g.Writes ms) {generatedLine generatedCharacter : Int}
    (onward : g.pendingGeneratedLine ≤ generatedLine) (hl : InRange generatedLine) (hc : InRange generatedCharacter)
    (args : SourceArgs sourceIndex sourceLine sourceCharacter nameIndex) :
    ∃ g', g.addMapping generatedLine generatedCharacter sourceIndex sourceLine sourceCharacter nameIndex = .ok g' ∧
      g'.Writes (ms ++ g.addMappingCommits generatedLine generatedCharacter sourceIndex sourceLine
        sourceCharacter) := by
  unfold addMapping addMappingCommits
  split
  · obtain ⟨g₁, hok, hw, hline⟩ := commitPendingMapping_writes h
    refine ⟨_, by rw [hok]; rfl, setPendingSource_writes ?_ args⟩
    have later : g₁.lastGeneratedLine ≤ generatedLine := le_trans hw.forward (hline ▸ onward)
    exact { hw with forward := later, pending := { hw.pending with line := hl, character := hc } }
  · exact ⟨_, rfl, by simpa using setPendingSource_writes h args⟩

end Generator

inductive Call where
  | addSource (fileName : String)
  | addName (name : String)
  | addGeneratedMapping (generatedLine generatedCharacter : Int)
  | addSourceMapping (generatedLine generatedCharacter sourceIndex sourceLine sourceCharacter : Int)
  | addNamedSourceMapping
      (generatedLine generatedCharacter sourceIndex sourceLine sourceCharacter nameIndex : Int)

namespace Call

def run (g : Generator) : Call → Outcome Generator
  | addSource fileName => .ok (g.addSource fileName).2
  | addName name => .ok (g.addName name).2
  | addGeneratedMapping gl gc => g.addGeneratedMapping gl gc
  | addSourceMapping gl gc si sl sc => g.addSourceMapping gl gc si sl sc
  | addNamedSourceMapping gl gc si sl sc ni => g.addNamedSourceMapping gl gc si sl sc ni

def commits (g : Generator) : Call → List Mapping
  | addSource _ => []
  | addName _ => []
  | addGeneratedMapping gl gc => g.addMappingCommits gl gc sourceIndexNotSet notSet notSet
  | addSourceMapping gl gc si sl sc => g.addMappingCommits gl gc si sl sc
  | addNamedSourceMapping gl gc si sl sc _ => g.addMappingCommits gl gc si sl sc

def Below : Call → Prop
  | addSource _ => True
  | addName _ => True
  | addGeneratedMapping gl gc => gl < 2 ^ 30 ∧ gc < 2 ^ 30
  | addSourceMapping gl gc si sl sc =>
    gl < 2 ^ 30 ∧ gc < 2 ^ 30 ∧ si < 2 ^ 30 ∧ sl < 2 ^ 30 ∧ sc < 2 ^ 30
  | addNamedSourceMapping gl gc si sl sc ni =>
    gl < 2 ^ 30 ∧ gc < 2 ^ 30 ∧ si < 2 ^ 30 ∧ sl < 2 ^ 30 ∧ sc < 2 ^ 30 ∧ ni < 2 ^ 30

instance : (c : Call) → Decidable c.Below
  | addSource _ => isTrue trivial
  | addName _ => isTrue trivial
  | addGeneratedMapping _ _ => inferInstanceAs (Decidable (_ ∧ _))
  | addSourceMapping _ _ _ _ _ => inferInstanceAs (Decidable (_ ∧ _))
  | addNamedSourceMapping _ _ _ _ _ _ => inferInstanceAs (Decidable (_ ∧ _))

end Call

/-- A run of calls with the mappings committed on the way; it stops at the first
call that does not succeed. -/
def runCalls : Generator → List Call → Outcome (Generator × List Mapping)
  | g, [] => .ok (g, [])
  | g, c :: cs =>
    (c.run g).bind fun g' =>
    (runCalls g' cs).bind fun (g'', ms) => .ok (g'', c.commits g ++ ms)

theorem addSource_writes (h : g.Writes ms) (fileName : String) : (g.addSource fileName).2.Writes ms := by
  unfold Generator.addSource
  dsimp only
  split
  · exact h
  · exact { h with pending := { h.pending with } }

theorem addName_writes (h : g.Writes ms) (name : String) : (g.addName name).2.Writes ms := by
  unfold Generator.addName
  split
  · exact h
  · exact { h with pending := { h.pending with } }

theorem validateSourceMappingArgs_cases (g : Generator) (gl gc si sl sc : Int) :
    (g.validateSourceMappingArgs gl gc si sl sc = .ok () ∧ g.pendingGeneratedLine ≤ gl ∧ 0 ≤ gc ∧
      0 ≤ si ∧ 0 ≤ sl ∧ 0 ≤ sc) ∨
    ∃ message, g.validateSourceMappingArgs gl gc si sl sc = .err message := by
  unfold Generator.validateSourceMappingArgs
  repeat' split
  all_goals first
    | exact .inr ⟨_, rfl⟩
    | exact .inl ⟨rfl, by omega, by omega, by omega, by omega, by omega⟩

theorem run_writes (h : g.Writes ms) (c : Call) (below : c.Below) :
    (∃ g', c.run g = .ok g' ∧ g'.Writes (ms ++ c.commits g)) ∨ ∃ message, c.run g = .err message := by
  have start := h.pending.line.1
  cases c with
  | addSource fileName => exact .inl ⟨_, rfl, by simpa [Call.commits] using addSource_writes h fileName⟩
  | addName name => exact .inl ⟨_, rfl, by simpa [Call.commits] using addName_writes h name⟩
  | addGeneratedMapping gl gc =>
    simp only [Call.run, Generator.addGeneratedMapping, Call.commits]
    split
    · exact .inr ⟨_, rfl⟩
    · split
      · exact .inr ⟨_, rfl⟩
      · exact .inl (Generator.addMapping_writes h (by omega) ⟨by omega, below.1⟩ ⟨by omega, below.2⟩
          (.inl ⟨rfl, rfl, rfl⟩))
  | addSourceMapping gl gc si sl sc =>
    simp only [Call.run, Generator.addSourceMapping, Call.commits]
    obtain ⟨hgl, hgc, hsi, hsl, hsc⟩ := below
    rcases validateSourceMappingArgs_cases g gl gc si sl sc with ⟨hv, pl, pc, ps, psl, psc⟩ | ⟨m, hv⟩
    · rw [hv]
      exact .inl (Generator.addMapping_writes h pl ⟨by omega, hgl⟩ ⟨pc, hgc⟩
        (.inr ⟨⟨ps, hsi⟩, ⟨psl, hsl⟩, ⟨psc, hsc⟩, .inl rfl⟩))
    · rw [hv]
      exact .inr ⟨m, rfl⟩
  | addNamedSourceMapping gl gc si sl sc ni =>
    simp only [Call.run, Generator.addNamedSourceMapping, Call.commits]
    obtain ⟨hgl, hgc, hsi, hsl, hsc, hni⟩ := below
    rcases validateSourceMappingArgs_cases g gl gc si sl sc with ⟨hv, pl, pc, ps, psl, psc⟩ | ⟨m, hv⟩
    · rw [hv, Outcome.bind_ok]
      split
      · exact .inr ⟨_, rfl⟩
      · exact .inl (Generator.addMapping_writes h pl ⟨by omega, hgl⟩ ⟨pc, hgc⟩
          (.inr ⟨⟨ps, hsi⟩, ⟨psl, hsl⟩, ⟨psc, hsc⟩, .inr ⟨by omega, hni⟩⟩))
    · rw [hv]
      exact .inr ⟨m, rfl⟩

/-- No run of calls in range aborts, and a run that succeeds has written the
encoding of what it committed. -/
theorem runCalls_writes (h : g.Writes ms) (cs : List Call) (below : ∀ c ∈ cs, c.Below) :
    (∃ g' more, runCalls g cs = .ok (g', more) ∧ g'.Writes (ms ++ more)) ∨
      ∃ message, runCalls g cs = .err message := by
  induction cs generalizing g ms with
  | nil => exact .inl ⟨g, [], rfl, by simpa using h⟩
  | cons c cs ih =>
    rcases run_writes h c (below c (by simp)) with ⟨g', hr, hw⟩ | ⟨m, hr⟩
    · rcases ih hw (fun c hc => below c (by simp [hc])) with ⟨g'', more, hrs, hws⟩ | ⟨m, hrs⟩
      · refine .inl ⟨g'', c.commits g ++ more, ?_, by simpa using hws⟩
        simp [runCalls, hr, hrs]
      · exact .inr ⟨m, by simp [runCalls, hr, hrs, Outcome.bind]⟩
    · exact .inr ⟨m, by simp [runCalls, hr, Outcome.bind]⟩

end TypeScriptRs.SourceMap
