import TypeScriptRs.Incremental.Collection

/-! The cached diagnostics that a collection drops. -/
namespace TypeScriptRs.Incremental
open Machine AffectedFilesHandler Sweep

section
variable {program : CompilerProgram} {s : Snapshot}

def TransitivelyReferences (s : Snapshot) (x a : Path) : Prop := Relation.TransGen (fun p q => q ∈ s.referencedBy p) a x

theorem Collected.affected {T : Handled} {halted : Prop} {t : Snapshot} (collected : Collected program s T halted t)
    {x : Path} (affected : Affected program s x) : x ∉ t.semanticDiagnosticsPerFile := by
  rw [← Finmap.lookup_eq_none, collected.semanticDiagnostics, if_pos (.inl affected)]

theorem mem_ownFiles_or_checkedLibraryFiles {x : Path} (file : x ∈ program.getSourceFiles)
    (kept : ¬ (program.isSourceFileDefaultLibrary x = true ∧ program.skipTypeChecking x = true)) :
    x ∈ program.ownFiles ∨ x ∈ program.checkedLibraryFiles := by
  unfold CompilerProgram.ownFiles CompilerProgram.checkedLibraryFiles
  cases library : program.isSourceFileDefaultLibrary x with
  | false => exact .inl (List.mem_filter.mpr ⟨file, by simp [library]⟩)
  | true =>
    refine .inr (List.mem_filter.mpr ⟨file, ?_⟩)
    cases skipped : program.skipTypeChecking x with
    | true => exact absurd ⟨library, skipped⟩ kept
    | false => simp [library]

theorem TransitivelyReferences.beyond {x a : Path} (path : TransitivelyReferences s x a) :
    x ∈ s.referencedBy a ∨ Beyond s a x := by
  obtain ⟨q, first, rest⟩ := Relation.TransGen.head'_iff.mp path
  rcases Relation.ReflTransGen.cases_head rest with rfl | ⟨r, second, more⟩
  · exact .inl first
  · exact .inr ⟨q, first, r, second, more⟩

theorem Swept.dropped {order : Enumeration s} {st : State Path} (swept : Swept program order (Affected program s) st)
    {a x : Path} (source : Source program s a) (file : x ∈ program.getSourceFiles)
    (path : TransitivelyReferences s x a)
    (kept : ¬ (program.isSourceFileDefaultLibrary x = true ∧ program.skipTypeChecking x = true)) :
    Dropped program s (handledBy program s st.log) (Halts st.log) x := by
  have affected : Affected program s a := .changed source.2.1 (program.own a source.1)
  by_cases changed : x ∈ s.changedFilesSet
  · exact .inl (.changed changed (program.own x file))
  have visited : ∀ level, st.Visited level x ∨ st.Stopped level →
      Dropped program s (handledBy program s st.log) (Halts st.log) x := by
    rintro level (⟨l, -, logged⟩ | ⟨l, -, logged⟩)
    · exact .inr (.inl ⟨l, changed, .inl logged⟩)
    · rcases mem_ownFiles_or_checkedLibraryFiles file kept with own | checked
      · exact .inr (.inl ⟨l, changed, .inr ⟨logged, own⟩⟩)
      · exact .inr (.inr ⟨⟨l, logged⟩, checked⟩)
  rcases path.beyond with edge | beyond
  · cases isolated : s.options.isolatedModules with
    | false => exact .inl (affected.referencing source.2.2 isolated edge)
    | true =>
      have other : x ≠ a := fun same => changed (same ▸ source.2.1)
      exact visited false (swept.visited affected source (.inl ⟨rfl, isolated, edge, other⟩))
  · by_cases cut : Cut s a
    · exact visited false (.inr (swept.stopped affected source (.inl ⟨rfl, cut⟩)))
    · exact visited _ (swept.visited affected source (.inr ⟨cut, rfl, beyond⟩))

/-- A collection ends and leaves no changed file and no diagnostics that the changes may
have invalidated, but for those of library files that are never checked. -/
theorem collectAllAffectedFiles_sound (consistent : Consistent program s)
    (everywhere : s.options.assumeChangesOnlyAffectDirectDependencies = false) (order : Enumeration s) :
    ∃ t, collectAllAffectedFiles program order = .ok t ∧ t.changedFilesSet = ∅ ∧
      (∀ c ∈ s.changedFilesSet, ∀ f, program.getSourceFileByPath c = some f → f ∉ t.semanticDiagnosticsPerFile) ∧
      (∀ x, Affected program s x → x ∉ t.semanticDiagnosticsPerFile) ∧
      (¬ Noticed program order → ∀ a x, Source program s a → x ∈ program.getSourceFiles →
        TransitivelyReferences s x a →
        ¬ (program.isSourceFileDefaultLibrary x = true ∧ program.skipTypeChecking x = true) →
        x ∉ t.semanticDiagnosticsPerFile) := by
  by_cases changes : s.changedFilesSet = ∅
  · refine ⟨s, if_pos changes, changes, ?_, ?_, ?_⟩
    · intro c changed
      simp [changes] at changed
    · intro x affected
      exact (affected.least (U := fun _ => False) (by simp [changes]) (by simp)).elim
    · intro _ a x source
      exact absurd source.2.1 (by simp [changes])
  obtain ⟨T, halted, t, run, completes, collected⟩ := collectAllAffectedFiles_spec order consistent changes
  refine ⟨t, run, collected.changedFiles, ?_, fun x => collected.affected, ?_⟩
  · intro c changed f target
    exact collected.affected (.changed changed target)
  intro unnoticed a x source file path kept
  rw [← Finmap.lookup_eq_none, collected.semanticDiagnostics]
  cases completes with
  | noticed noticed => exact absurd noticed unnoticed
  | direct _ direct => cases everywhere.symm.trans direct
  | swept _ _ swept => exact if_pos (swept.dropped source file path kept)
end

theorem nodup_first (first : Path) (files : Finset Path) : (first :: (files.erase first).sorted).Nodup := by
  refine List.nodup_cons.mpr ⟨fun later => ?_, Finset.nodup_sorted _⟩
  exact Finset.notMem_erase first files (Finset.mem_sorted.mp later)

theorem mem_first {first : Path} {files : Finset Path} (member : first ∈ files) (p : Path) :
    p ∈ first :: (files.erase first).sorted ↔ p ∈ files := by
  rw [List.mem_cons, Finset.mem_sorted, Finset.mem_erase]
  constructor
  · rintro (rfl | ⟨-, there⟩)
    · exact member
    · exact there
  · intro there
    by_cases same : p = first
    · exact .inl same
    · exact .inr ⟨same, there⟩

/-- The hash tables list their keys in order, but for one changed file that comes first. -/
def Enumeration.startingWith {s : Snapshot} (first : Path) (member : first ∈ s.changedFilesSet) : Enumeration s where
  changed := first :: (s.changedFilesSet.erase first).sorted
  referencedBy p := (s.referencedBy p).sorted
  affected files := files.sorted
  changed_nodup := nodup_first first s.changedFilesSet
  mem_changed := mem_first member
  referencedBy_nodup _ := Finset.nodup_sorted _
  mem_referencedBy _ _ := Finset.mem_sorted
  affected_nodup _ := Finset.nodup_sorted _
  mem_affected _ _ := Finset.mem_sorted

def CompilerProgram.ofFiles (files : List Path) (distinct : files.Nodup) (library : Path → Bool) : CompilerProgram where
  options := {}
  getSourceFiles := files
  filesByPath := HashMap.ofKeys files.toFinset some
  isSourceFileDefaultLibrary := library
  skipTypeChecking := library
  isDeclarationFile := library
  isJsonSourceFile _ := false
  sourceFileMayBeEmitted f := !library f
  version f := "version of " ++ f
  affectsGlobalScope := library
  impliedNodeFormat _ := .none
  getReferencedFiles _ := none
  computeDtsSignature f := "declarations of " ++ f
  exportsConstEnum _ := false
  distinct := distinct
  own f member := by simp [HashMap.lookup_ofKeys, member]
  target p f found := by
    rw [HashMap.lookup_ofKeys] at found
    split at found
    · rename_i member
      cases found
      exact List.mem_toFinset.mp member
    · cases found

/-- The file `a.ts` has changed. The library file refers to it through `b.ts`, whose own
signature stays the same. -/
def referringLibrary : CompilerProgram :=
  .ofFiles ["a.ts", "b.ts", "lib.d.ts"] (by decide) (· = "lib.d.ts")

def referringLibrarySnapshot : Snapshot where
  fileInfos := HashMap.ofKeys {"a.ts", "b.ts", "lib.d.ts"} fun f =>
    some ⟨referringLibrary.version f, if f = "b.ts" then "declarations of b.ts" else "", f = "lib.d.ts", .none⟩
  referencedMap := HashMap.ofKeys {"b.ts", "lib.d.ts"} fun f => some (if f = "b.ts" then {"a.ts"} else {"b.ts"})
  semanticDiagnosticsPerFile := Finmap.singleton "lib.d.ts" ⟨[], []⟩
  changedFilesSet := {"a.ts"}

/-- The library file keeps its diagnostics: the searches stop there, since it affects the
global scope, and library files that are not checked are left alone. -/
theorem referringLibrary_keeps : Source referringLibrary referringLibrarySnapshot "a.ts" ∧
    "lib.d.ts" ∈ referringLibrary.getSourceFiles ∧
    TransitivelyReferences referringLibrarySnapshot "lib.d.ts" "a.ts" ∧
    ∃ t, collectAllAffectedFiles referringLibrary
        (.startingWith (s := referringLibrarySnapshot) "a.ts" (by decide)) = .ok t ∧
      "lib.d.ts" ∈ t.semanticDiagnosticsPerFile := by
  refine ⟨⟨by decide, by decide, ?_⟩, by decide, ?_, ?_⟩
  · exact ⟨⟨"version of a.ts", "", false, .none⟩, by decide, by decide⟩
  · exact .tail (.single (by decide : "b.ts" ∈ _)) (by decide)
  · exact ⟨_, rfl, by decide⟩

theorem threeFiles_nodup : ["a.ts", "b.ts", "c.ts"].Nodup := by decide

def circle : CompilerProgram := .ofFiles ["a.ts", "b.ts", "c.ts"] threeFiles_nodup fun _ => false

def circleSnapshot : Snapshot where
  fileInfos := HashMap.ofKeys {"a.ts", "b.ts", "c.ts"} fun f =>
    some ⟨circle.version f, if f = "b.ts" then "declarations of b.ts" else "", false, .none⟩
  referencedMap := HashMap.ofKeys {"a.ts", "b.ts", "c.ts"} fun f =>
    some (if f = "a.ts" then {"c.ts"} else if f = "b.ts" then {"a.ts"} else {"b.ts"})
  semanticDiagnosticsPerFile := HashMap.ofKeys {"a.ts", "b.ts", "c.ts"} fun _ => some ⟨[], []⟩
  changedFilesSet := {"a.ts"}

theorem circle_consistent : Consistent circle circleSnapshot where
  infos := by decide
  referencing p member := by
    have keys : ∀ p ∈ circleSnapshot.referencedMap.keys, p ∈ circle.getSourceFiles := by decide
    exact keys p (Finmap.mem_keys.mpr member)
  allFiles files cached := by cases cached

theorem circle_unnoticed (order : Enumeration circleSnapshot) : ¬ Noticed circle order := by
  rintro ⟨pre, c, post, split, f, target, scope, -⟩
  have changed : c ∈ circleSnapshot.changedFilesSet := (order.mem_changed c).mp (by simp [split])
  cases Finset.mem_singleton.mp changed
  cases (by decide : circle.getSourceFileByPath "a.ts" = some "a.ts").symm.trans target
  exact absurd scope (by decide)

/-- The last module loses its diagnostics, two references away from the change. -/
theorem circle_sound : Source circle circleSnapshot "a.ts" ∧ "c.ts" ∈ circleSnapshot.semanticDiagnosticsPerFile ∧
    ∃ t, collectAllAffectedFiles circle (.startingWith (s := circleSnapshot) "a.ts" (by decide)) = .ok t ∧
      "c.ts" ∉ t.semanticDiagnosticsPerFile := by
  have source : Source circle circleSnapshot "a.ts" :=
    ⟨by decide, by decide, ⟨"version of a.ts", "", false, .none⟩, by decide, by decide⟩
  have path : TransitivelyReferences circleSnapshot "c.ts" "a.ts" :=
    .tail (.single (by decide : "b.ts" ∈ _)) (by decide)
  obtain ⟨t, run, -, -, -, dropped⟩ := collectAllAffectedFiles_sound circle_consistent rfl
    (.startingWith (s := circleSnapshot) "a.ts" (by decide))
  exact ⟨source, by decide, t, run, dropped (circle_unnoticed _) "a.ts" "c.ts" source (by decide) path (by decide)⟩

end TypeScriptRs.Incremental
