import TypeScriptRs.Incremental.Soundness

/-! What a change of the global scope does. -/
namespace TypeScriptRs.Incremental
open Machine AffectedFilesHandler

section
variable {program : CompilerProgram} {s : Snapshot} {f : Path} {halted : Prop} {t : Snapshot} {T : Handled}

/-- A changed file of the program that affects the global scope, with a new signature. -/
def GlobalChange (program : CompilerProgram) (s : Snapshot) (f : Path) : Prop :=
  Source program s f ∧ AffectsGlobalScope s f

theorem not_affectedBy_nothing {changed : Path → Prop} (none : ∀ c, ¬ changed c) (f : Path) :
    ¬ AffectedBy program s changed f := fun affected =>
  affected.least (U := fun _ => False) (fun c _ changed => (none c changed).elim) (fun _ _ false => false.elim)

theorem GlobalChange.noticed (change : GlobalChange program s f) : Noticed program (.startingWith f change.1.2.1) :=
  ⟨[], f, _, rfl, f, program.own f change.1.1, change.2, change.1.2.2, not_affectedBy_nothing (by simp) f⟩

def Invalidated (program : CompilerProgram) (t : Snapshot) : Prop :=
  ∀ f ∈ program.ownFiles, f ∉ t.semanticDiagnosticsPerFile ∧ f ∈ t.affectedFilesPendingEmit

theorem Collected.untouched (collected : Collected program s nothing halted t) (own : f ∈ program.ownFiles) (other : ¬ Affected program s f) :
    t.semanticDiagnosticsPerFile.lookup f = s.semanticDiagnosticsPerFile.lookup f ∧
    t.affectedFilesPendingEmit.lookup f = s.affectedFilesPendingEmit.lookup f := by
  have kept : ¬ Dropped program s nothing halted f := by
    rintro (affected | ⟨_, never⟩ | ⟨-, checked⟩)
    · exact other affected
    · exact never
    · have library := (List.mem_filter.mp checked).2
      have mine := (List.mem_filter.mp own).2
      simp_all
  have kind : addedKind program s nothing f = none := by simp [addedKind, other, nothing]
  exact ⟨by rw [collected.semanticDiagnostics, if_neg kept], by rw [collected.pendingEmit, kind]⟩

theorem Collected.keeps_invalid (collected : Collected program s T halted t) (checked : f ∉ s.semanticDiagnosticsPerFile)
    (pending : f ∈ s.affectedFilesPendingEmit) :
    f ∉ t.semanticDiagnosticsPerFile ∧ f ∈ t.affectedFilesPendingEmit := by
  constructor
  · rw [← Finmap.lookup_eq_none, collected.semanticDiagnostics, Finmap.lookup_eq_none.mpr checked, ite_self]
  · rw [← Finmap.lookup_isSome, collected.pendingEmit]
    cases addedKind program s T f with
    | some k => rfl
    | none => exact Finmap.lookup_isSome.mpr pending

theorem Collected.pending_of_affected (collected : Collected program s T halted t) (affected : Affected program s f) :
    f ∈ t.affectedFilesPendingEmit := by
  rw [← Finmap.lookup_isSome, collected.pendingEmit]
  simp [addedKind, affected]

/-- A change of the global scope invalidates all own files, in every order, just when each
of them is affected anyway or was invalid before. -/
theorem globalChange_invalidates_iff (consistent : Consistent program s)
    (change : ∃ f, GlobalChange program s f) :
    (∀ order : Enumeration s, ∃ t, collectAllAffectedFiles program order = .ok t ∧ Invalidated program t) ↔
    ∀ f ∈ program.ownFiles, Affected program s f ∨
      (f ∉ s.semanticDiagnosticsPerFile ∧ f ∈ s.affectedFilesPendingEmit) := by
  obtain ⟨g, change⟩ := change
  have changes : s.changedFilesSet ≠ ∅ := Finset.ne_empty_of_mem change.1.2.1
  constructor
  · intro invalidated f own
    obtain ⟨t, run, all⟩ := invalidated (.startingWith g change.1.2.1)
    obtain ⟨T, halted, t', run', completes, collected⟩ := collectAllAffectedFiles_spec
      (.startingWith g change.1.2.1) consistent changes
    cases run.symm.trans run'
    by_cases affected : Affected program s f
    · exact .inl affected
    -- The change is noticed first here, so nothing but the affected files is handled.
    cases completes with
    | noticed _ =>
      obtain ⟨checked, pending⟩ := collected.untouched own affected
      obtain ⟨dropped, emitted⟩ := all f own
      rw [← Finmap.lookup_eq_none, checked, Finmap.lookup_eq_none] at dropped
      rw [← Finmap.lookup_isSome, pending, Finmap.lookup_isSome] at emitted
      exact .inr ⟨dropped, emitted⟩
    | direct unnoticed _ => exact absurd change.noticed unnoticed
    | swept unnoticed _ _ => exact absurd change.noticed unnoticed
  · intro covered order
    obtain ⟨T, halted, t, run, -, collected⟩ := collectAllAffectedFiles_spec order consistent changes
    refine ⟨t, run, fun f own => ?_⟩
    rcases covered f own with affected | ⟨checked, pending⟩
    · exact ⟨collected.affected affected, collected.pending_of_affected affected⟩
    · exact collected.keeps_invalid checked pending
end

/-- A script that declares globals has changed; the module may refer to it or not. -/
def scriptAndModule : CompilerProgram := .ofFiles ["globals.ts", "module.ts"] (by decide) fun _ => false

def scriptAndModuleInfos : HashMap Path FileInfo :=
  HashMap.ofKeys {"globals.ts", "module.ts"} fun f =>
    some ⟨scriptAndModule.version f, if f = "globals.ts" then "" else "declarations of module.ts",
      f = "globals.ts", .none⟩

def scriptAndModuleSnapshot (references : Finset Path) : Snapshot where
  fileInfos := scriptAndModuleInfos
  referencedMap := Finmap.singleton "module.ts" references
  semanticDiagnosticsPerFile := HashMap.ofKeys {"globals.ts", "module.ts"} fun _ => some ⟨[], []⟩
  changedFilesSet := {"globals.ts"}

theorem scriptAndModule_consistent (references : Finset Path) :
    Consistent scriptAndModule (scriptAndModuleSnapshot references) where
  infos := (by decide : ∀ f ∈ scriptAndModule.getSourceFiles, f ∈ scriptAndModuleInfos)
  referencing p member := by
    cases (Finmap.mem_singleton _ _ _).mp member
    decide
  allFiles files cached := by cases cached

theorem scriptAndModule_change (references : Finset Path) :
    GlobalChange scriptAndModule (scriptAndModuleSnapshot references) "globals.ts" :=
  ⟨⟨by decide, Finset.mem_singleton_self _, ⟨"version of globals.ts", "", true, .none⟩, rfl, by decide⟩, rfl⟩

/-- The module keeps its diagnostics and is not emitted again. -/
theorem globalChange_missesModule :
    GlobalChange scriptAndModule (scriptAndModuleSnapshot ∅) "globals.ts" ∧
    ∃ t, collectAllAffectedFiles scriptAndModule
        (.startingWith (s := scriptAndModuleSnapshot ∅) "globals.ts" (by decide)) = .ok t ∧
      "module.ts" ∈ scriptAndModule.ownFiles ∧ "module.ts" ∈ t.semanticDiagnosticsPerFile ∧
      "module.ts" ∉ t.affectedFilesPendingEmit :=
  ⟨scriptAndModule_change ∅, _, rfl, by decide, by decide, by decide⟩

/-- A module that refers to the script is affected. -/
theorem globalChange_reachesModule :
    GlobalChange scriptAndModule (scriptAndModuleSnapshot {"globals.ts"}) "globals.ts" ∧
    ∀ order : Enumeration (scriptAndModuleSnapshot {"globals.ts"}),
      ∃ t, collectAllAffectedFiles scriptAndModule order = .ok t ∧ Invalidated scriptAndModule t := by
  have change := scriptAndModule_change {"globals.ts"}
  refine ⟨change, ?_⟩
  have script : Affected scriptAndModule (scriptAndModuleSnapshot {"globals.ts"}) "globals.ts" :=
    .changed change.1.2.1 (by decide)
  refine (globalChange_invalidates_iff (scriptAndModule_consistent _) ⟨"globals.ts", change⟩).mpr ?_
  intro f own
  left
  have files : f = "globals.ts" ∨ f = "module.ts" := by
    simpa [scriptAndModule, CompilerProgram.ofFiles, CompilerProgram.ownFiles] using own
  rcases files with rfl | rfl
  · exact script
  · exact script.referencing change.1.2.2 rfl (by decide)

end TypeScriptRs.Incremental
