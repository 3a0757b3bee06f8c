import TypeScriptRs.Incremental.Discovery

/-! Handling files: the effect is determined by which were handled at which level. -/
namespace TypeScriptRs.Incremental
open Machine AffectedFilesHandler List

/-- The files handled so far, with the level: `true` when their JavaScript is invalid too. -/
abbrev Handled := Bool → Path → Prop

def Handled.Any (T : Handled) (x : Path) : Prop := ∃ high, T high x

section
variable {program : CompilerProgram} {s : Snapshot} {h : AffectedFilesHandler} {p : Path} {level : Bool}

/-- The handler after some files have been handled, from where the first half left it. -/
structure Effects (program : CompilerProgram) (s : Snapshot) (h₀ : AffectedFilesHandler) (done : Path → Prop)
    (T : Handled) (halted : Prop) (h : AffectedFilesHandler) : Prop where
  snapshot : SameSnapshot program s h.snapshot
  flag : h.hasAllFilesExcludingDefaultLibraryFile = h₀.hasAllFilesExcludingDefaultLibraryFile
  removed : ∀ x, x ∈ h.filesToRemoveDiagnostics ↔
    done x ∨ T.Any x ∨ (halted ∧ x ∈ program.checkedLibraryFiles)
  cleaned : h.cleanedDiagnosticsOfLibFiles = true ↔ halted
  kept : ∀ x ∈ h₀.updatedSignatures, h.updatedSignatures.lookup x = h₀.updatedSignatures.lookup x
  added : ∀ x, x ∉ h₀.updatedSignatures → T.Any x →
    h.updatedSignatures.lookup x = (s.fileInfos.lookup x).map FileInfo.version
  fresh : ∀ x, x ∉ h₀.updatedSignatures → ¬ T.Any x → x ∉ h.updatedSignatures

/-- The emit kinds that handling the files has set for one affected file. Later kinds
replace earlier ones, and the high level comes last. -/
structure Changes (s : Snapshot) (a : Path) (T : Handled) (change : DtsMayChange) : Prop where
  own : change.lookup a = some (getFileEmitKind s.options)
  high : ∀ x, T true x → change.lookup x = some (getFileEmitKind s.options)
  low : ∀ x, T false x → ¬ T true x → x ≠ a →
    change.lookup x = if s.options.getEmitDeclarations then some (dtsEmitKind s.options) else none
  none : ∀ x, ¬ T.Any x → x ≠ a → change.lookup x = none

def Handled.add (T : Handled) (s : Snapshot) (level : Bool) (files : Path → Prop) : Handled :=
  fun high x => T high x ∨ (high = level ∧ files x ∧ x ∉ s.changedFilesSet)

theorem Handled.any_add (T : Handled) (level : Bool) (files : Path → Prop) (x : Path) :
    (T.add s level files).Any x ↔ T.Any x ∨ (files x ∧ x ∉ s.changedFilesSet) := by
  constructor
  · rintro ⟨high, old | ⟨-, new⟩⟩
    · exact .inl ⟨high, old⟩
    · exact .inr new
  · rintro (⟨high, old⟩ | new)
    · exact ⟨high, .inl old⟩
    · exact ⟨level, .inr ⟨rfl, new⟩⟩

theorem newSignature_version (file : Path) (info : FileInfo) : newSignature program file info true = info.version := by
  simp [newSignature]

variable {h₀ : AffectedFilesHandler} {done : Path → Prop} {T : Handled} {halted : Prop}

theorem Effects.touch (consistent : Consistent program s)
    (effects : Effects program s h₀ done T halted h) (file : p ∈ program.getSourceFiles)
    (unchanged : p ∉ s.changedFilesSet) (level : Bool) :
    ∃ result h', (h.removeSemanticDiagnosticsOf p).updateShapeSignature program p true = .ok (result, h') ∧
      Effects program s h₀ done (T.add s level (· = p)) halted h' ∧
      h'.seenFileAndReferences = h.seenFileAndReferences ∧ h'.dtsMayChange = h.dtsMayChange := by
  obtain ⟨info, found, run⟩ := updateShapeSignature_eq (h := h.removeSemanticDiagnosticsOf p) consistent
    effects.snapshot file true
  have untouched : (h.removeSemanticDiagnosticsOf p).updatedSignatures = h.updatedSignatures := rfl
  rw [untouched] at run
  have removed : ∀ x, x ∈ insert p h.filesToRemoveDiagnostics ↔
      done x ∨ (T.add s level (· = p)).Any x ∨ (halted ∧ x ∈ program.checkedLibraryFiles) := by
    intro x
    rw [Finset.mem_insert, effects.removed, Handled.any_add]
    constructor
    · rintro (rfl | old | old | old)
      · exact .inr (.inl (.inr ⟨rfl, unchanged⟩))
      · exact .inl old
      · exact .inr (.inl (.inl old))
      · exact .inr (.inr old)
    rintro (old | (old | ⟨rfl, -⟩) | old)
    · exact .inr (.inl old)
    · exact .inr (.inr (.inl old))
    · exact .inl rfl
    · exact .inr (.inr (.inr old))
  have handled : ∀ x, (T.add s level (· = p)).Any x ↔ T.Any x ∨ x = p := by
    intro x
    rw [Handled.any_add]
    constructor
    · rintro (old | ⟨same, -⟩)
      · exact .inl old
      · exact .inr same
    · rintro (old | rfl)
      · exact .inl old
      · exact .inr ⟨rfl, unchanged⟩
  by_cases cached : p ∈ h.updatedSignatures
  · rw [if_pos cached] at run
    refine ⟨_, _, run, ⟨effects.snapshot, effects.flag, removed, effects.cleaned, effects.kept,
      fun x old new => ?_, fun x old new => ?_⟩, rfl, rfl⟩
    · rcases (handled x).mp new with before | rfl
      · exact effects.added x old before
      · by_cases before : T.Any x
        · exact effects.added x old before
        · exact absurd cached (effects.fresh x old before)
    · exact effects.fresh x old fun before => new ((handled x).mpr (.inl before))
  rw [if_neg cached] at run
  refine ⟨_, _, run, ⟨effects.snapshot, effects.flag, removed, effects.cleaned, fun x old => ?_,
    fun x old new => ?_, fun x old new => ?_⟩, rfl, rfl⟩
  · have other : x ≠ p := by
      rintro rfl
      apply cached
      obtain ⟨signature, lookup⟩ := Finmap.mem_iff.mp old
      exact Finmap.mem_iff.mpr ⟨signature, (effects.kept x old).trans lookup⟩
    show (Finmap.insert p _ h.updatedSignatures).lookup x = _
    rw [HashMap.lookup_insert_if, if_neg other]
    exact effects.kept x old
  · show (Finmap.insert p _ h.updatedSignatures).lookup x = _
    rw [HashMap.lookup_insert_if]
    split
    · rename_i same
      rw [same, found, newSignature_version]
      rfl
    · rename_i other
      exact effects.added x old (((handled x).mp new).resolve_right other)
  · show x ∉ Finmap.insert p _ h.updatedSignatures
    rw [Finmap.mem_insert]
    rintro (same | member)
    · exact new ((handled x).mpr (.inr same))
    · exact effects.fresh x old (fun before => new ((handled x).mpr (.inl before))) member

/-- The handler and the changes of the affected file it is at. -/
structure Handling (program : CompilerProgram) (s : Snapshot) (h₀ : AffectedFilesHandler) (done : Path → Prop)
    (list : List DtsMayChange) (a : Path) (T here : Handled) (halted : Prop) (seen : HashMap Path Bool)
    (c : DtsMayChange × AffectedFilesHandler) : Prop where
  effects : Effects program s h₀ done T halted c.2
  changes : Changes s a here c.1
  seen : c.2.seenFileAndReferences = seen
  list : c.2.dtsMayChange = list

variable {list : List DtsMayChange} {a : Path} {here : Handled} {seen : HashMap Path Bool}
  {c : DtsMayChange × AffectedFilesHandler}

theorem Handled.add_false (T : Handled) (level : Bool) : T.add s level (fun _ => False) = T := by
  funext high x
  simp [Handled.add]

theorem Handled.add_add (T : Handled) (level : Bool) (first second : Path → Prop) :
    (T.add s level first).add s level second = T.add s level fun x => first x ∨ second x := by
  funext high x
  simp only [Handled.add, or_assoc, eq_iff_iff]
  tauto

theorem Changes.touch {change : DtsMayChange} (changes : Changes s a here change)
    (member : a ∈ s.changedFilesSet) (unchanged : p ∉ s.changedFilesSet) (last : level = false → ∀ x, ¬ here true x) :
    Changes s a (here.add s level (· = p)) (if level then change.insert p (getFileEmitKind s.options)
      else if s.options.getEmitDeclarations then change.insert p (dtsEmitKind s.options) else change) := by
  have other : a ≠ p := fun same => unchanged (same ▸ member)
  cases level with
  | true =>
    refine ⟨?_, fun x now => ?_, fun x now before apart => ?_, fun x never apart => ?_⟩
    · simp only [if_true, HashMap.lookup_insert_if, if_neg other, changes.own]
    · simp only [if_true, HashMap.lookup_insert_if]
      split
      · rfl
      · rename_i apart
        exact changes.high x (now.resolve_right fun new => apart new.2.1)
    · have distinct : x ≠ p := fun same => before (.inr ⟨rfl, same, same ▸ unchanged⟩)
      simp only [if_true, HashMap.lookup_insert_if, if_neg distinct]
      exact changes.low x (now.resolve_right fun new => distinct new.2.1) (fun old => before (.inl old)) apart
    · have distinct : x ≠ p := fun same => never ⟨true, .inr ⟨rfl, same, same ▸ unchanged⟩⟩
      simp only [if_true, HashMap.lookup_insert_if, if_neg distinct]
      exact changes.none x (fun ⟨high, old⟩ => never ⟨high, .inl old⟩) apart
  | false =>
    have lookup : ∀ x, (if s.options.getEmitDeclarations then change.insert p (dtsEmitKind s.options)
        else change).lookup x = if s.options.getEmitDeclarations ∧ x = p then some (dtsEmitKind s.options)
          else change.lookup x := by
      cases s.options.getEmitDeclarations <;> simp [HashMap.lookup_insert_if]
    simp only [Bool.false_eq_true, if_false]
    refine ⟨?_, fun x now => ?_, fun x now before apart => ?_, fun x never apart => ?_⟩
    · rw [lookup, if_neg (fun both => other both.2), changes.own]
    · rcases now with old | ⟨high, -⟩
      · exact absurd old (last rfl x)
      · cases high
    · rw [lookup]
      by_cases same : x = p
      · cases declared : s.options.getEmitDeclarations with
        | true => simp [same]
        | false =>
          by_cases old : here false x
          · simpa [declared] using changes.low x old (last rfl x) apart
          have never : ¬ here.Any x := by
            rintro ⟨high, old'⟩
            cases high with
            | true => exact last rfl x old'
            | false => exact old old'
          simpa using changes.none x never apart
      · rw [if_neg (fun both => same both.2)]
        exact changes.low x (now.resolve_right fun new => same new.2.1) (last rfl x) apart
    · have distinct : x ≠ p := fun same => never ⟨false, .inr ⟨rfl, same, same ▸ unchanged⟩⟩
      rw [lookup, if_neg (fun both => distinct both.2)]
      exact changes.none x (fun ⟨high, old⟩ => never ⟨high, .inl old⟩) apart

theorem handleDtsMayChangeOf_spec (consistent : Consistent program s)
    (handling : Handling program s h₀ done list a T here halted seen c) (member : a ∈ s.changedFilesSet) (file : p ∈ program.getSourceFiles) (last : level = false → ∀ x, ¬ here true x) :
    ∃ c', handleDtsMayChangeOf (s := s) program p level c = .ok c' ∧
      Handling program s h₀ done list a (T.add s level (· = p)) (here.add s level (· = p)) halted seen c' := by
  unfold handleDtsMayChangeOf
  by_cases changed : p ∈ s.changedFilesSet
  · have same : ∀ T : Handled, T.add s level (· = p) = T := by
      intro T
      funext high x
      simp only [Handled.add, eq_iff_iff, or_iff_left_iff_imp]
      rintro ⟨-, rfl, unchanged⟩
      exact absurd changed unchanged
    rw [if_pos changed, same, same]
    exact ⟨c, rfl, handling⟩
  obtain ⟨result, h', run, effects, kept, changes⟩ :=
    handling.effects.touch consistent file changed level
  have kinds := handling.changes.touch member changed last
  rw [if_neg changed, CompilerProgram.getSourceFileByPath, program.own p file]
  simp only [run, Outcome.monad_bind, Outcome.bind_ok, Outcome.monad_pure]
  refine ⟨(_, h'), ?_, effects, kinds, kept.trans handling.seen, changes.trans handling.list⟩
  cases level with
  | true => rfl
  | false => cases s.options.getEmitDeclarations <;> rfl

theorem foldlM_handleDtsMayChangeOf (consistent : Consistent program s) (member : a ∈ s.changedFilesSet) (files : List Path) (inside : ∀ p ∈ files, p ∈ program.getSourceFiles) :
    ∀ {T here : Handled} {c : DtsMayChange × AffectedFilesHandler},
      Handling program s h₀ done list a T here halted seen c → (level = false → ∀ x, ¬ here true x) →
      ∃ c', files.foldlM (fun c file => handleDtsMayChangeOf (s := s) program file level c) c = .ok c' ∧
        Handling program s h₀ done list a (T.add s level (· ∈ files)) (here.add s level (· ∈ files)) halted seen
          c' := by
  induction files with
  | nil =>
    intro T here c handling _
    refine ⟨c, rfl, ?_⟩
    simp only [not_mem_nil, Handled.add_false]
    exact handling
  | cons p files ih =>
    intro T here c handling last
    obtain ⟨c₁, run, handling₁⟩ := handleDtsMayChangeOf_spec consistent handling member (inside p (by simp)) last
    obtain ⟨c', more, handling'⟩ := ih (fun q hq => inside q (by simp [hq])) handling₁ (by
      rintro low x (old | ⟨high, -⟩)
      · exact last low x old
      · rw [low] at high
        cases high)
    refine ⟨c', ?_, ?_⟩
    · rw [foldlM_cons, run]
      exact more
    · simpa only [Handled.add_add, mem_cons] using handling'

theorem foldl_removeSemanticDiagnosticsOf (files : List Path) (h : AffectedFilesHandler) :
    ∃ removed, files.foldl removeSemanticDiagnosticsOf h = { h with filesToRemoveDiagnostics := removed } ∧
      ∀ x, x ∈ removed ↔ x ∈ h.filesToRemoveDiagnostics ∨ x ∈ files := by
  induction files generalizing h with
  | nil => exact ⟨h.filesToRemoveDiagnostics, rfl, by simp⟩
  | cons p files ih =>
    obtain ⟨removed, run, members⟩ := ih (h.removeSemanticDiagnosticsOf p)
    refine ⟨removed, run, fun x => ?_⟩
    rw [members]
    simp only [AffectedFilesHandler.removeSemanticDiagnosticsOf, Finset.mem_insert, mem_cons]
    tauto

theorem Effects.clean (effects : Effects program s h₀ done T halted h) :
    Effects program s h₀ done T True (h.removeDiagnosticsOfLibraryFiles program) ∧
      (h.removeDiagnosticsOfLibraryFiles program).seenFileAndReferences = h.seenFileAndReferences ∧
      (h.removeDiagnosticsOfLibraryFiles program).dtsMayChange = h.dtsMayChange := by
  unfold AffectedFilesHandler.removeDiagnosticsOfLibraryFiles
  cases clean : h.cleanedDiagnosticsOfLibFiles with
  | true =>
    have before : halted := effects.cleaned.mp clean
    exact ⟨by simpa [before] using effects, rfl, rfl⟩
  | false =>
    obtain ⟨removed, run, members⟩ := foldl_removeSemanticDiagnosticsOf program.checkedLibraryFiles
      { h with cleanedDiagnosticsOfLibFiles := true }
    simp only [Bool.false_eq_true, if_false, run]
    refine ⟨⟨effects.snapshot, effects.flag, fun x => ?_, by simp, effects.kept, effects.added, effects.fresh⟩,
      by simp, by simp⟩
    have before : ¬ halted := fun now => by
      rw [effects.cleaned.mpr now] at clean
      cases clean
    simp only [members, effects.removed, before, false_and, or_false, true_and, or_assoc]

theorem handleDtsMayChangeOfGlobalScope_spec (consistent : Consistent program s)
    (handling : Handling program s h₀ done list a T here halted seen c) (member : a ∈ s.changedFilesSet)
    (p : Path) (last : level = false → ∀ x, ¬ here true x) :
    (¬ AffectsGlobalScope s p → handleDtsMayChangeOfGlobalScope (s := s) program p level c = .ok (false, c)) ∧
    (AffectsGlobalScope s p → ∃ c', handleDtsMayChangeOfGlobalScope (s := s) program p level c = .ok (true, c') ∧
      Handling program s h₀ done list a (T.add s level (· ∈ program.ownFiles))
        (here.add s level (· ∈ program.ownFiles)) True seen c') := by
  unfold handleDtsMayChangeOfGlobalScope AffectsGlobalScope
  rw [handling.effects.snapshot.fileInfos]
  constructor
  · intro scope
    rw [if_neg scope]
    rfl
  intro scope
  obtain ⟨listed, same⟩ := handling.effects.snapshot.allFiles none (by simp)
  have ready : Handling program s h₀ done list a T here halted seen
      (c.1, { c.2 with snapshot := (c.2.snapshot.getAllFilesExcludingDefaultLibraryFile program none).2 }) :=
    ⟨{ handling.effects with snapshot := same }, handling.changes, handling.seen, handling.list⟩
  obtain ⟨c', run, handling'⟩ := foldlM_handleDtsMayChangeOf consistent member
    (c.2.snapshot.getAllFilesExcludingDefaultLibraryFile program none).1
    (fun f hf => (mem_filter.mp ((listed f).mp hf)).1) ready last
  obtain ⟨cleaned, kept, changes⟩ := handling'.effects.clean
  simp only [listed] at cleaned
  refine ⟨(c'.1, c'.2.removeDiagnosticsOfLibraryFiles program), ?_, cleaned, ?_, kept.trans handling'.seen,
    changes.trans handling'.list⟩
  · rw [if_pos scope]
    simp only [run, Outcome.monad_bind, Outcome.bind_ok, Outcome.monad_pure]
  · simpa only [listed] using handling'.changes
end

section
variable {program : CompilerProgram} {s : Snapshot} {done : Path → Prop} {T here : Handled}

/-- The collected changes hold the full kind for the affected files and those handled at
the high level, and the kind of the declarations for the others. -/
structure Summary (s : Snapshot) (done : Path → Prop) (T : Handled) (list : List DtsMayChange) : Prop where
  sound : ∀ change ∈ list, ∀ x k, change.lookup x = some k →
    (k = getFileEmitKind s.options ∧ (done x ∨ T true x)) ∨
    (k = dtsEmitKind s.options ∧ s.options.getEmitDeclarations = true ∧ T false x)
  full : ∀ x, done x ∨ T true x → ∃ change ∈ list, change.lookup x = some (getFileEmitKind s.options)
  low : s.options.getEmitDeclarations = true → ∀ x, T false x → ∃ change ∈ list, x ∈ change

theorem Summary.nil : Summary s (fun _ => False) (fun _ _ => False) [] :=
  ⟨by simp, by simp, by simp⟩

theorem Summary.push {list : List DtsMayChange} {a : Path} {change : DtsMayChange}
    (summary : Summary s done T list) (changes : Changes s a here change) :
    Summary s (fun x => done x ∨ x = a) (fun level x => T level x ∨ here level x) (list ++ [change]) where
  sound c member x k found := by
    rcases mem_append.mp member with old | new
    · rcases summary.sound c old x k found with ⟨kind, reached⟩ | ⟨kind, declared, reached⟩
      · exact .inl ⟨kind, reached.imp .inl .inl⟩
      · exact .inr ⟨kind, declared, .inl reached⟩
    rw [mem_singleton.mp new] at found
    by_cases own : x = a
    · rw [own, changes.own] at found
      exact .inl ⟨(Option.some.inj found).symm, .inl (.inr own)⟩
    by_cases high : here true x
    · rw [changes.high x high] at found
      exact .inl ⟨(Option.some.inj found).symm, .inr (.inr high)⟩
    by_cases low : here false x
    · rw [changes.low x low high own] at found
      split at found
      · rename_i declared
        exact .inr ⟨(Option.some.inj found).symm, declared, .inr low⟩
      · cases found
    · rw [changes.none x (by rintro ⟨level, now⟩; cases level <;> contradiction) own] at found
      cases found
  full x reached := by
    have earlier : done x ∨ T true x → ∃ c ∈ list ++ [change], c.lookup x = some (getFileEmitKind s.options) := by
      intro before
      obtain ⟨c, member, found⟩ := summary.full x before
      exact ⟨c, mem_append_left _ member, found⟩
    rcases reached with (before | rfl) | before | now
    · exact earlier (.inl before)
    · exact ⟨change, by simp, changes.own⟩
    · exact earlier (.inr before)
    · exact ⟨change, by simp, changes.high x now⟩
  low declared x reached := by
    rcases reached with before | now
    · obtain ⟨c, member, found⟩ := summary.low declared x before
      exact ⟨c, mem_append_left _ member, found⟩
    refine ⟨change, by simp, ?_⟩
    rw [← Finmap.lookup_isSome]
    by_cases own : x = a
    · rw [own, changes.own]
      rfl
    by_cases high : here true x
    · rw [changes.high x high]
      rfl
    · rw [changes.low x now high own, if_pos declared]
      rfl

def addKinds (old : Option FileEmitKind) (kinds : List FileEmitKind) : Option FileEmitKind :=
  kinds.foldl (fun old k => some (old.getD 0 ||| k)) old

theorem addKinds_of_greatest {kinds : List FileEmitKind} {K : FileEmitKind} (member : K ∈ kinds)
    (greatest : ∀ k ∈ kinds, K ||| k = K) (old : Option FileEmitKind) :
    addKinds old kinds = some (old.getD 0 ||| K) := by
  induction kinds generalizing old with
  | nil => cases member
  | cons k kinds ih =>
    have first := greatest k (by simp)
    show addKinds (some (old.getD 0 ||| k)) kinds = _
    by_cases rest : K ∈ kinds
    · rw [ih rest (fun k' hk' => greatest k' (by simp [hk'])), Option.getD_some, BitVec.or_assoc,
        BitVec.or_comm k K, first]
    obtain rfl : K = k := by simpa [rest] using member
    -- From here on every kind is there already.
    have settled : ∀ (kinds : List FileEmitKind) (v : FileEmitKind), (∀ k ∈ kinds, K ||| k = K) →
        addKinds (some (v ||| K)) kinds = some (v ||| K) := by
      intro kinds
      induction kinds with
      | nil =>
        intro v _
        rfl
      | cons k kinds ih =>
        intro v below
        show addKinds (some ((some (v ||| K)).getD 0 ||| k)) kinds = _
        rw [Option.getD_some, BitVec.or_assoc, below k (by simp)]
        exact ih v fun k' hk' => below k' (by simp [hk'])
    exact settled kinds _ fun k' hk' => greatest k' (by simp [hk'])

theorem getFileEmitKind_or_dtsEmitKind (o : CompilerOptions) (declared : o.getEmitDeclarations = true) :
    getFileEmitKind o ||| dtsEmitKind o = getFileEmitKind o := by
  unfold getFileEmitKind dtsEmitKind
  rw [declared]
  cases o.sourceMap <;> cases o.inlineSourceMap <;> cases o.declarationMap <;> cases o.emitDeclarationOnly <;> rfl

def kindsOf (list : List DtsMayChange) (x : Path) : List FileEmitKind := list.filterMap fun change => change.lookup x

def applyChanges (t : Snapshot) (list : List DtsMayChange) : Snapshot :=
  list.foldl (fun t (change : DtsMayChange) =>
    change.foldl Snapshot.addFileToAffectedFilesPendingEmit addFileToAffectedFilesPendingEmit_comm t) t

theorem applyChanges_pointwise {X : Type} (get : Snapshot → Path → X) (g : X → FileEmitKind → X)
    (step : ∀ t p k x, get (t.addFileToAffectedFilesPendingEmit p k) x = if x = p then g (get t x) k else get t x)
    (list : List DtsMayChange) (t : Snapshot) (x : Path) :
    get (applyChanges t list) x = (kindsOf list x).foldl g (get t x) := by
  induction list generalizing t with
  | nil => rfl
  | cons change list ih =>
    have one := HashMap.foldl_pointwise addFileToAffectedFilesPendingEmit_comm get g step change t x
    show get (applyChanges _ list) x = _
    rw [ih, one, kindsOf, kindsOf, filterMap_cons]
    cases change.lookup x <;> rfl

theorem applyChanges_pending (list : List DtsMayChange) (t : Snapshot) (x : Path) :
    (applyChanges t list).affectedFilesPendingEmit.lookup x =
      addKinds (t.affectedFilesPendingEmit.lookup x) (kindsOf list x) := by
  refine applyChanges_pointwise (fun t x => t.affectedFilesPendingEmit.lookup x) _ (fun t p k x => ?_) list t x
  show (Finmap.insert p _ t.affectedFilesPendingEmit).lookup x = _
  rw [HashMap.lookup_insert_if]
  by_cases same : x = p
  · subst same
    rfl
  · rw [if_neg same, if_neg same]

theorem applyChanges_emitDiagnostics (list : List DtsMayChange) (t : Snapshot) (x : Path) :
    (applyChanges t list).emitDiagnosticsPerFile.lookup x =
      if ∃ k ∈ kindsOf list x, k &&& fileEmitKindDtsErrors ≠ 0 then none else t.emitDiagnosticsPerFile.lookup x := by
  rw [applyChanges_pointwise (fun t x => t.emitDiagnosticsPerFile.lookup x)
    (fun old k => if k &&& fileEmitKindDtsErrors ≠ 0 then none else old) (fun t p k x => ?_) list t x]
  · generalize t.emitDiagnosticsPerFile.lookup x = old
    induction kindsOf list x generalizing old with
    | nil => simp
    | cons k kinds ih =>
      rw [foldl_cons, ih]
      simp only [mem_cons, exists_eq_or_imp]
      by_cases rest : ∃ k ∈ kinds, k &&& fileEmitKindDtsErrors ≠ 0
      · rw [if_pos rest, if_pos (.inr rest)]
      · by_cases first : k &&& fileEmitKindDtsErrors ≠ 0
        · rw [if_neg rest, if_pos first, if_pos (.inl first)]
        · rw [if_neg rest, if_neg first, if_neg (not_or.mpr ⟨first, rest⟩)]
  · show (if k &&& fileEmitKindDtsErrors ≠ 0 then t.emitDiagnosticsPerFile.erase p
      else t.emitDiagnosticsPerFile).lookup x = _
    by_cases errors : k &&& fileEmitKindDtsErrors ≠ 0
    · rw [if_pos errors, if_pos errors, HashMap.lookup_erase_if]
    · rw [if_neg errors, if_neg errors, ite_self]

/-- The two snapshots differ at most in what is to be emitted. -/
structure SameFiles (t t' : Snapshot) : Prop where
  fileInfos : t'.fileInfos = t.fileInfos
  options : t'.options = t.options
  referencedMap : t'.referencedMap = t.referencedMap
  semanticDiagnostics : t'.semanticDiagnosticsPerFile = t.semanticDiagnosticsPerFile
  emitSignatures : t'.emitSignatures = t.emitSignatures
  latestChangedDtsFile : t'.latestChangedDtsFile = t.latestChangedDtsFile
  checkPending : t'.checkPending = t.checkPending
  allFiles : t'.allFilesExcludingDefaultLibraryFile = t.allFilesExcludingDefaultLibraryFile

theorem applyChanges_sameFiles (list : List DtsMayChange) (t : Snapshot) : SameFiles t (applyChanges t list) := by
  have all : ∀ t', SameFiles t t' → SameFiles t (applyChanges t' list) := by
    induction list with
    | nil => exact fun t' same => same
    | cons change list ih =>
      intro t' same
      exact ih _ (HashMap.foldl_keeps addFileToAffectedFilesPendingEmit_comm
        (fun t' p k same => ⟨same.fileInfos, same.options, same.referencedMap, same.semanticDiagnostics,
          same.emitSignatures, same.latestChangedDtsFile, same.checkPending, same.allFiles⟩) change same)
  exact all t ⟨rfl, rfl, rfl, rfl, rfl, rfl, rfl, rfl⟩
end

variable {list : List DtsMayChange} {x : Path}

open scoped Classical

variable (program : CompilerProgram) (s : Snapshot) (T : Handled) (halted : Prop)

noncomputable def finalSignature (x : Path) (info : FileInfo) : String :=
  if Affected program s x then newSignature program x info false
  else if T.Any x then info.version else info.signature

def Dropped (x : Path) : Prop := Affected program s x ∨ T.Any x ∨ (halted ∧ x ∈ program.checkedLibraryFiles)

noncomputable def addedKind (x : Path) : Option FileEmitKind :=
  if Affected program s x ∨ T true x then some (getFileEmitKind s.options)
  else if s.options.getEmitDeclarations = true ∧ T false x then some (dtsEmitKind s.options) else none

/-- The snapshot that a collection leaves, by the files it has handled. -/
structure Collected (t : Snapshot) : Prop where
  fileInfos : ∀ x, t.fileInfos.lookup x = (s.fileInfos.lookup x).map fun info =>
    { info with signature := finalSignature program s T x info }
  semanticDiagnostics : ∀ x, t.semanticDiagnosticsPerFile.lookup x =
    if Dropped program s T halted x then none else s.semanticDiagnosticsPerFile.lookup x
  pendingEmit : ∀ x, t.affectedFilesPendingEmit.lookup x = match addedKind program s T x with
    | some k => some ((s.affectedFilesPendingEmit.lookup x).getD 0 ||| k)
    | none => s.affectedFilesPendingEmit.lookup x
  emitDiagnostics : ∀ x, t.emitDiagnosticsPerFile.lookup x = match addedKind program s T x with
    | some k => if k &&& fileEmitKindDtsErrors ≠ 0 then none else s.emitDiagnosticsPerFile.lookup x
    | none => s.emitDiagnosticsPerFile.lookup x
  changedFiles : t.changedFilesSet = ∅
  frame : t.options = s.options ∧ t.referencedMap = s.referencedMap ∧ t.emitSignatures = s.emitSignatures ∧
    t.latestChangedDtsFile = s.latestChangedDtsFile ∧ t.checkPending = s.checkPending ∧
    t.buildInfoEmitPending = true

variable {program s T halted}

theorem Summary.kinds_of_some (summary : Summary s (Affected program s) T list)
    {K : FileEmitKind} (kind : addedKind program s T x = some K) :
    K ∈ kindsOf list x ∧ ∀ k ∈ kindsOf list x, K ||| k = K := by
  have source : ∀ k ∈ kindsOf list x, (k = getFileEmitKind s.options ∧ (Affected program s x ∨ T true x)) ∨
      (k = dtsEmitKind s.options ∧ s.options.getEmitDeclarations = true ∧ T false x) := by
    intro k member
    obtain ⟨change, listed, found⟩ := mem_filterMap.mp member
    exact summary.sound change listed x k found
  unfold addedKind at kind
  split at kind
  · rename_i full
    cases kind
    constructor
    · obtain ⟨change, listed, found⟩ := summary.full x full
      exact mem_filterMap.mpr ⟨change, listed, found⟩
    · intro k member
      rcases source k member with ⟨rfl, -⟩ | ⟨rfl, declared, -⟩
      · exact BitVec.or_self
      · exact getFileEmitKind_or_dtsEmitKind s.options declared
  rename_i never
  split at kind
  · rename_i low
    cases kind
    have only : ∀ k ∈ kindsOf list x, k = dtsEmitKind s.options := by
      intro k member
      rcases source k member with ⟨-, full⟩ | ⟨same, -⟩
      · exact absurd full never
      · exact same
    constructor
    · obtain ⟨change, listed, found⟩ := summary.low low.1 x low.2
      obtain ⟨k, lookup⟩ := Finmap.mem_iff.mp found
      have member : k ∈ kindsOf list x := mem_filterMap.mpr ⟨change, listed, lookup⟩
      exact only k member ▸ member
    · intro k member
      rw [only k member]
      exact BitVec.or_self
  · cases kind

theorem Summary.kinds_of_none (summary : Summary s (Affected program s) T list)
    (kind : addedKind program s T x = none) : kindsOf list x = [] := by
  unfold addedKind at kind
  split at kind
  · cases kind
  rename_i never
  split at kind
  · cases kind
  rename_i low
  rw [eq_nil_iff_forall_not_mem]
  intro k member
  obtain ⟨change, listed, found⟩ := mem_filterMap.mp member
  rcases summary.sound change listed x k found with ⟨-, full⟩ | ⟨-, below⟩
  · exact never full
  · exact low below

/-- What the final snapshot knows of a file: its signature is the one that was computed, if one was. -/
def AffectedFilesHandler.settledInfo (h : AffectedFilesHandler) (path : Path) (info : FileInfo) : Option FileInfo :=
  match h.updatedSignatures.lookup path with
  | some signature => some { info with signature := signature }
  | none => some info

theorem updateSnapshot_collected {order : Enumeration s} {result : Finset Path} {h₀ h : AffectedFilesHandler}
    (found : Found program s order.changed result h₀)
    (effects : Effects program s h₀ (Affected program s) T halted h)
    (summary : Summary s (Affected program s) T h.dtsMayChange) :
    Collected program s T halted (updateSnapshot h) := by
  have affected : ∀ x, x ∈ h₀.updatedSignatures ↔ Affected program s x := fun x => by
    rw [← found.result, found.affected]
  obtain ⟨cache, same, -⟩ := effects.snapshot
  let t : Snapshot := { h.snapshot with
    fileInfos := h.snapshot.fileInfos.alterAll h.settledInfo
    semanticDiagnosticsPerFile := h.snapshot.semanticDiagnosticsPerFile.alterAll fun path diagnostics =>
      if path ∈ h.filesToRemoveDiagnostics then none else some diagnostics }
  have final : updateSnapshot h =
      { applyChanges t h.dtsMayChange with changedFilesSet := ∅, buildInfoEmitPending := true } := rfl
  have kept := applyChanges_sameFiles h.dtsMayChange t
  have infos : t.fileInfos = s.fileInfos.alterAll h.settledInfo := by
    simp only [t, same]
  have diagnostics : t.semanticDiagnosticsPerFile = s.semanticDiagnosticsPerFile.alterAll fun path diagnostics =>
      if path ∈ h.filesToRemoveDiagnostics then none else some diagnostics := by
    simp only [t, same]
  have rest : t.options = s.options ∧ t.referencedMap = s.referencedMap ∧ t.emitSignatures = s.emitSignatures ∧
      t.latestChangedDtsFile = s.latestChangedDtsFile ∧ t.checkPending = s.checkPending ∧
      t.affectedFilesPendingEmit = s.affectedFilesPendingEmit ∧
      t.emitDiagnosticsPerFile = s.emitDiagnosticsPerFile := by
    simp only [t, same, and_self]
  obtain ⟨options, references, signatures, latest, pending, emits, errors⟩ := rest
  rw [final]
  refine ⟨fun x => ?_, fun x => ?_, fun x => ?_, fun x => ?_, rfl, ?_⟩
  · rw [kept.fileInfos, infos, HashMap.lookup_alterAll]
    cases entry : s.fileInfos.lookup x with
    | none => rfl
    | some info =>
      simp only [Option.bind_some, Option.map_some, AffectedFilesHandler.settledInfo, finalSignature]
      by_cases reached : Affected program s x
      · obtain ⟨signature, lookup⟩ := Finmap.mem_iff.mp ((affected x).mpr reached)
        obtain ⟨info', entry', value⟩ := found.known.values x signature lookup
        cases entry.symm.trans entry'
        rw [effects.kept x ((affected x).mpr reached), lookup, if_pos reached, value]
      have old : x ∉ h₀.updatedSignatures := fun member => reached ((affected x).mp member)
      rw [if_neg reached]
      by_cases handled : T.Any x
      · rw [effects.added x old handled, entry, if_pos handled]
        rfl
      · rw [Finmap.lookup_eq_none.mpr (effects.fresh x old handled), if_neg handled]
  · rw [kept.semanticDiagnostics, diagnostics, HashMap.lookup_alterAll]
    have removed : x ∈ h.filesToRemoveDiagnostics ↔ Dropped program s T halted x := effects.removed x
    by_cases dropped : Dropped program s T halted x
    · rw [if_pos dropped]
      cases s.semanticDiagnosticsPerFile.lookup x <;> simp [removed.mpr dropped]
    · rw [if_neg dropped]
      cases s.semanticDiagnosticsPerFile.lookup x <;> simp [removed.not.mpr dropped]
  · rw [applyChanges_pending, emits]
    cases kind : addedKind program s T x with
    | none =>
      rw [summary.kinds_of_none kind]
      rfl
    | some K =>
      obtain ⟨member, greatest⟩ := summary.kinds_of_some kind
      exact addKinds_of_greatest member greatest _
  · rw [applyChanges_emitDiagnostics, errors]
    cases kind : addedKind program s T x with
    | none =>
      rw [summary.kinds_of_none kind, if_neg (by simp)]
    | some K =>
      obtain ⟨member, greatest⟩ := summary.kinds_of_some kind
      by_cases error : K &&& fileEmitKindDtsErrors ≠ 0
      · rw [if_pos ⟨K, member, error⟩]
        exact (if_pos error).symm
      rw [if_neg]
      · exact (if_neg error).symm
      · rintro ⟨k, listed, error'⟩
        have none : K &&& fileEmitKindDtsErrors = 0 := not_not.mp error
        rw [← greatest k listed, BitVec.and_or_distrib_right] at none
        exact error' (BitVec.or_eq_zero_iff.mp none).2
  · show (applyChanges t h.dtsMayChange).options = _ ∧ (applyChanges t h.dtsMayChange).referencedMap = _ ∧
      (applyChanges t h.dtsMayChange).emitSignatures = _ ∧ (applyChanges t h.dtsMayChange).latestChangedDtsFile = _ ∧
      (applyChanges t h.dtsMayChange).checkPending = _ ∧ true = true
    rw [kept.options, kept.referencedMap, kept.emitSignatures, kept.latestChangedDtsFile, kept.checkPending]
    exact ⟨options, references, signatures, latest, pending, rfl⟩

end TypeScriptRs.Incremental
