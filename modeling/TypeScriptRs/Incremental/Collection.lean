import TypeScriptRs.Incremental.Invalidation

/-! A whole collection: it always ends, and what snapshot it leaves. -/
namespace TypeScriptRs.Incremental
open Machine AffectedFilesHandler Sweep List

section
variable {program : CompilerProgram} {s : Snapshot} {order : Enumeration s}
variable {done : List Path} {a x : Path} {st : State Path} {level : Bool}

structure Swept (program : CompilerProgram) {s : Snapshot} (order : Enumeration s) (done : Path → Prop)
    (st : State Path) : Prop where
  settled : ∀ level, Settled order.referencedBy st level fun _ => False
  visits : ∀ x level, .visit x level ∈ st.log →
    ¬ AffectsGlobalScope s x ∧ ∃ a, done a ∧ Source program s a ∧ MayVisit program s a level x
  stops : ∀ level, .stop level ∈ st.log → ∃ a, done a ∧ Source program s a ∧ MayStop program s a level
  direct : ∀ a, done a → Source program s a → ∀ q, Direct s a q → st.Visited false q ∨ st.Stopped false
  cut : ∀ a, done a → Source program s a → Cut s a → st.Stopped false
  main : ∀ a, done a → Source program s a → ¬ Cut s a → st.Stopped (program.exportsConstEnum a) ∨
    ((∀ q ∈ s.referencedBy a, ¬ AffectsGlobalScope s q) ∧
      ∀ q ∈ s.referencedBy a, ∀ r ∈ s.referencedBy q, st.Covers (program.exportsConstEnum a) r)

theorem Swept.start : Swept program order (· ∈ ([] : List Path)) State.start where
  settled level := .inr fun n covered _ => by simp [State.Covers, State.start] at covered
  visits x level member := by cases member
  stops level member := by cases member
  direct a member := by cases member
  cut a member := by cases member
  main a member := by cases member

theorem Swept.round {st' : State Path} (swept : Swept program order (· ∈ done) st)
    (source : Source program s a) (round : Round program order a st st') :
    Swept program order (· ∈ done ++ [a]) st' where
  settled level := round.settled level _ (swept.settled level)
  visits x level member := by
    rcases round.visits x level member with old | ⟨scope, may⟩
    · obtain ⟨scope, b, listed, found⟩ := swept.visits x level old
      exact ⟨scope, b, mem_append_left _ listed, found⟩
    · exact ⟨scope, a, by simp, source, may⟩
  stops level member := by
    rcases round.stops level member with old | may
    · obtain ⟨b, listed, found⟩ := swept.stops level old
      exact ⟨b, mem_append_left _ listed, found⟩
    · exact ⟨a, by simp, source, may⟩
  direct b listed other q here := by
    rcases mem_append.mp listed with old | new
    · exact (swept.direct b old other q here).imp round.grows.visited round.grows.stopped
    · cases mem_singleton.mp new
      exact round.direct q here
  cut b listed other cut := by
    rcases mem_append.mp listed with old | new
    · exact round.grows.stopped (swept.cut b old other cut)
    · cases mem_singleton.mp new
      exact round.cut cut
  main b listed other uncut := by
    rcases mem_append.mp listed with old | new
    · refine (swept.main b old other uncut).imp round.grows.stopped fun ⟨entries, roots⟩ => ⟨entries, ?_⟩
      exact fun q hq r hr => round.grows.covers _ r (roots q hq r hr)
    · cases mem_singleton.mp new
      exact round.main uncut

theorem Swept.skip (swept : Swept program order (· ∈ done) st)
    (other : ¬ Source program s a) : Swept program order (· ∈ done ++ [a]) st := by
  have earlier : ∀ b, b ∈ done ++ [a] → Source program s b → b ∈ done := by
    intro b listed source
    rcases mem_append.mp listed with old | new
    · exact old
    · exact absurd (mem_singleton.mp new ▸ source) other
  refine ⟨swept.settled, fun x level member => ?_, fun level member => ?_, ?_, ?_, ?_⟩
  · obtain ⟨scope, b, listed, found⟩ := swept.visits x level member
    exact ⟨scope, b, mem_append_left _ listed, found⟩
  · obtain ⟨b, listed, found⟩ := swept.stops level member
    exact ⟨b, mem_append_left _ listed, found⟩
  · exact fun b listed source => swept.direct b (earlier b listed source) source
  · exact fun b listed source => swept.cut b (earlier b listed source) source
  · exact fun b listed source => swept.main b (earlier b listed source) source

variable {done : Path → Prop} {st : State Path}

theorem Swept.covers_path (swept : Swept program order done st) (going : ¬ st.Stopped level)
    {r : Path} (root : st.Covers level r) (path : Relation.ReflTransGen (fun p q => q ∈ s.referencedBy p) r x) :
    st.Covers level x := by
  have closed := (swept.settled level).resolve_left going
  induction path with
  | refl => exact root
  | tail _ edge ih => exact (closed _ ih id).2 _ ((order.mem_referencedBy _ _).mpr edge)

theorem Swept.visited (swept : Swept program order done st) (listed : done a)
    (source : Source program s a) (may : MayVisit program s a level x) : st.Visited level x ∨ st.Stopped level := by
  rcases may with ⟨rfl, here⟩ | ⟨uncut, rfl, q, hq, r, hr, path⟩
  · exact swept.direct a listed source x here
  by_cases halted : st.Stopped (program.exportsConstEnum a)
  · exact .inr halted
  · obtain ⟨-, roots⟩ := (swept.main a listed source uncut).resolve_left halted
    have covered := swept.covers_path halted (roots q hq r hr) path
    exact .inl (((swept.settled _).resolve_left halted) x covered id).1

theorem Swept.stopped (swept : Swept program order done st) (listed : done a)
    (source : Source program s a) (may : MayStop program s a level) : st.Stopped level := by
  rcases may with ⟨rfl, cut⟩ | ⟨uncut, rfl, p, scope, entry | ⟨q, hq, r, hr, path⟩⟩
  · exact swept.cut a listed source cut
  · rcases swept.main a listed source uncut with halted | ⟨entries, -⟩
    · exact halted
    · exact absurd scope (entries p entry)
  rcases swept.main a listed source uncut with halted | ⟨-, roots⟩
  · exact halted
  · by_contra halted
    have covered := swept.covers_path halted (roots q hq r hr) path
    obtain ⟨⟨l, -, logged⟩, -⟩ := ((swept.settled _).resolve_left halted) p covered id
    exact (swept.visits p l logged).1 scope
end

variable {program : CompilerProgram} {s : Snapshot} {h₀ : AffectedFilesHandler} (order : Enumeration s)
variable {done : List Path} {halted : Prop} {h : AffectedFilesHandler} {a : Path} {result : Finset Path}

def nothing : Handled := fun _ _ => False

theorem Working.single {halted' : Prop} {h' : AffectedFilesHandler} (before : Working program s h₀ done nothing halted h)
    (effects : Effects program s h₀ (· ∈ done ++ [a]) nothing halted' h') (same : h'.dtsMayChange = h.dtsMayChange) :
    Working program s h₀ (done ++ [a]) nothing halted'
      { h' with dtsMayChange := h'.dtsMayChange ++ [Finmap.singleton a (getFileEmitKind s.options)] } :=
  before.finish effects (Changes.start a) same (by funext; simp [nothing])

theorem handleAffectedFile_noticed (consistent : Consistent program s) (known : Recomputed program s h₀)
    (noticed : h₀.hasAllFilesExcludingDefaultLibraryFile = true) (before : Working program s h₀ done nothing halted h)
    (updated : a ∈ h₀.updatedSignatures) :
    ∃ h', handleAffectedFile program order h a = .ok h' ∧ Working program s h₀ (done ++ [a]) nothing True h' := by
  have flag : (h.removeSemanticDiagnosticsOf a).hasAllFilesExcludingDefaultLibraryFile = true :=
    (before.effects.remove a).flag.trans noticed
  obtain ⟨cleaned, -, same⟩ := (before.effects.remove a).clean
  obtain ⟨info, -, run⟩ := updateShapeSignature_eq consistent cleaned.snapshot (known.files a updated) false
  have already : a ∈ ((h.removeSemanticDiagnosticsOf a).removeDiagnosticsOfLibraryFiles program).updatedSignatures := by
    obtain ⟨signature, lookup⟩ := Finmap.mem_iff.mp updated
    exact Finmap.mem_iff.mpr ⟨signature, (cleaned.kept a updated).trans lookup⟩
  rw [if_pos already] at run
  refine ⟨_, ?_, before.single cleaned same⟩
  unfold handleAffectedFile handleDtsMayChangeOfAffectedFile
  simp only [flag, if_true, run, Outcome.monad_bind, Outcome.monad_pure, Outcome.bind_ok]

theorem handleAffectedFile_direct (unnoticed : h₀.hasAllFilesExcludingDefaultLibraryFile = false)
    (direct : s.options.assumeChangesOnlyAffectDirectDependencies = true) (before : Working program s h₀ done nothing halted h) (a : Path) :
    ∃ h', handleAffectedFile program order h a = .ok h' ∧ Working program s h₀ (done ++ [a]) nothing halted h' := by
  have flag : (h.removeSemanticDiagnosticsOf a).hasAllFilesExcludingDefaultLibraryFile = false :=
    (before.effects.remove a).flag.trans unnoticed
  refine ⟨_, ?_, before.single (before.effects.remove a) rfl⟩
  unfold handleAffectedFile handleDtsMayChangeOfAffectedFile
  simp only [flag, direct, Bool.false_eq_true, if_false, if_true, Outcome.monad_bind, Outcome.monad_pure,
    Outcome.bind_ok]

theorem handledBy_nothing : handledBy program s [] = nothing := handledBy_nil

theorem Found.working (found : Found program s order.changed result h₀) : Working program s h₀ [] nothing False h₀ where
  effects := {
    snapshot := found.known.snapshot
    flag := rfl
    removed := fun x => by simp [found.idle.2.1, nothing, Handled.Any]
    cleaned := by simp [found.idle.2.2.1]
    kept := fun x _ => rfl
    added := fun x _ ⟨_, never⟩ => never.elim
    fresh := fun x old _ => old }
  summary := by
    rw [found.idle.1]
    simp only [not_mem_nil]
    exact Summary.nil

variable (program) in
/-- Some changed path is the first to lead to a file whose change affects the global scope. -/
def Noticed : Prop := ∃ pre c post, order.changed = pre ++ c :: post ∧ ChangesGlobalScope program s pre c

/-- What the second half handles, and whether it drops the diagnostics of library files. -/
inductive Completes (program : CompilerProgram) {s : Snapshot} (order : Enumeration s) : Handled → Prop → Prop
  | noticed : Noticed program order → Completes program order nothing True
  | direct : ¬ Noticed program order → s.options.assumeChangesOnlyAffectDirectDependencies = true →
      Completes program order nothing False
  | swept {st : State Path} : ¬ Noticed program order →
      s.options.assumeChangesOnlyAffectDirectDependencies = false → Swept program order (Affected program s) st →
      Completes program order (handledBy program s st.log) (Halts st.log)

theorem foldlM_completes (consistent : Consistent program s) (found : Found program s order.changed result h₀) :
    ∃ T halted h, (order.affected result).foldlM (handleAffectedFile program order) h₀ = .ok h ∧
      Completes program order T halted ∧ Effects program s h₀ (Affected program s) T halted h ∧
      Summary s (Affected program s) T h.dtsMayChange := by
  have done : (· ∈ [] ++ order.affected result) = Affected program s := by
    funext f
    rw [nil_append, order.mem_affected, found.affected]
  have updated : ∀ a ∈ order.affected result, a ∈ h₀.updatedSignatures := fun a member =>
    (found.result a).mp ((order.mem_affected result a).mp member)
  cases flag : h₀.hasAllFilesExcludingDefaultLibraryFile with
  | true =>
    have noticed : Noticed program order := found.global.mp flag
    obtain ⟨h, run, working⟩ := foldlM_done
      (P := fun done h => Working program s h₀ done nothing (done ≠ []) h) (order.affected result)
      (fun done h a member before => by
        obtain ⟨h', run, after⟩ := handleAffectedFile_noticed order consistent found.known flag before (updated a member)
        exact ⟨h', run, by simpa using after⟩)
      [] h₀ (by simpa using found.working)
    have halted : ([] ++ order.affected result ≠ []) = True := by
      obtain ⟨pre, c, post, split, f, target, -⟩ := noticed
      have affected : Affected program s f := .changed ((order.mem_changed c).mp (by simp [split])) target
      refine eq_true (ne_nil_of_mem (a := f) ?_)
      rw [nil_append, order.mem_affected, found.affected]
      exact affected
    rw [halted] at working
    exact ⟨_, _, h, run, .noticed noticed, done ▸ working.effects, done ▸ working.summary⟩
  | false =>
    have unnoticed : ¬ Noticed program order := fun noticed => by cases flag.symm.trans (found.global.mpr noticed)
    cases direct : s.options.assumeChangesOnlyAffectDirectDependencies with
    | true =>
      obtain ⟨h, run, working⟩ := foldlM_done (P := fun done h => Working program s h₀ done nothing False h)
        (order.affected result)
        (fun done h a _ before => handleAffectedFile_direct order flag direct before a) [] h₀ found.working
      exact ⟨_, _, h, run, .direct unnoticed direct, done ▸ working.effects, done ▸ working.summary⟩
    | false =>
      have changedFiles : ∀ f ∈ program.getSourceFiles, f ∈ s.changedFilesSet → f ∈ h₀.updatedSignatures :=
        fun f file changed => found.roots f f ((order.mem_changed f).mpr changed) (program.own f file)
      obtain ⟨h, run, st, working, -, swept⟩ := foldlM_done
        (P := fun done h => ∃ st, Working program s h₀ done (handledBy program s st.log) (Halts st.log) h ∧
          h.seenFileAndReferences = st.seen ∧ Swept program order (· ∈ done) st) (order.affected result)
        (fun done h a member ⟨st, working, seen, swept⟩ => by
          obtain ⟨h', st', run, working', seen', search, skip⟩ := handleAffectedFile_spec consistent order found.known
            changedFiles flag direct working seen (updated a member)
          refine ⟨h', run, st', working', seen', ?_⟩
          by_cases source : Source program s a
          · exact swept.round source (search source)
          · rw [skip source]
            exact swept.skip source)
        [] h₀ ⟨State.start, by simpa [State.start, handledBy_nothing, Halts] using found.working,
          found.idle.2.2.2, Swept.start⟩
      exact ⟨_, _, h, run, .swept unnoticed direct (done ▸ swept), done ▸ working.effects, done ▸ working.summary⟩

theorem collectAllAffectedFiles_spec (consistent : Consistent program s) (changes : s.changedFilesSet ≠ ∅) :
    ∃ T halted t, collectAllAffectedFiles program order = .ok t ∧ Completes program order T halted ∧
      Collected program s T halted t := by
  obtain ⟨result, h₀, first, found⟩ := findAffectedFiles_spec consistent order
  obtain ⟨T, halted, h, second, completes, effects, summary⟩ := foldlM_completes order consistent found
  refine ⟨T, halted, updateSnapshot h, ?_, completes, updateSnapshot_collected found effects summary⟩
  unfold collectAllAffectedFiles
  simp only [if_neg changes, first, second, Outcome.monad_bind, Outcome.bind_ok]
  rfl

end TypeScriptRs.Incremental
