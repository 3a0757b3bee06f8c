import TypeScriptRs.Incremental.GlobalScope

/-! When a collection does not depend on the order of the hash tables. -/
namespace TypeScriptRs.Incremental
open Machine AffectedFilesHandler Sweep

section
variable {T T' : Handled} {halted halted' : Prop}

open scoped Classical

variable {program : CompilerProgram} {s : Snapshot}

structure SameTables (t t' : Snapshot) : Prop where
  fileInfos : t.fileInfos = t'.fileInfos
  semanticDiagnostics : t.semanticDiagnosticsPerFile = t'.semanticDiagnosticsPerFile
  pendingEmit : t.affectedFilesPendingEmit = t'.affectedFilesPendingEmit
  emitDiagnostics : t.emitDiagnosticsPerFile = t'.emitDiagnosticsPerFile
  changedFiles : t.changedFilesSet = t'.changedFilesSet

structure Agrees (program : CompilerProgram) (s : Snapshot) (T : Handled) (halted : Prop) (T' : Handled)
    (halted' : Prop) : Prop where
  high : ∀ x, ¬ Affected program s x → (T true x ↔ T' true x)
  any : ∀ x, ¬ Affected program s x → (T.Any x ↔ T'.Any x)
  halted : halted ↔ halted'

theorem Agrees.refl (T : Handled) (halted : Prop) : Agrees program s T halted T halted :=
  ⟨fun _ _ => .rfl, fun _ _ => .rfl, .rfl⟩

theorem Agrees.dropped (agrees : Agrees program s T halted T' halted')
    (x : Path) : Dropped program s T halted x ↔ Dropped program s T' halted' x := by
  unfold Dropped
  by_cases affected : Affected program s x
  · simp [affected]
  · rw [agrees.any x affected, agrees.halted]

theorem Agrees.finalSignature (agrees : Agrees program s T halted T' halted')
    (x : Path) (info : FileInfo) : finalSignature program s T x info = finalSignature program s T' x info := by
  unfold Incremental.finalSignature
  by_cases affected : Affected program s x
  · simp [affected]
  · simp only [affected, if_false, agrees.any x affected]

theorem addedKind_eq (T : Handled) (x : Path) : addedKind program s T x =
    if Affected program s x ∨ T true x then some (getFileEmitKind s.options)
    else if s.options.getEmitDeclarations = true ∧ T.Any x then some (dtsEmitKind s.options) else none := by
  unfold addedKind
  split
  · rfl
  rename_i other
  have same : T.Any x ↔ T false x := by
    constructor
    · rintro ⟨level, handled⟩
      cases level with
      | false => exact handled
      | true => exact absurd (.inr handled) other
    · exact fun low => ⟨false, low⟩
  simp only [same]

theorem Agrees.addedKind (agrees : Agrees program s T halted T' halted')
    (x : Path) : addedKind program s T x = addedKind program s T' x := by
  rw [addedKind_eq, addedKind_eq]
  by_cases affected : Affected program s x
  · simp [affected]
  · simp only [affected, false_or, agrees.high x affected, agrees.any x affected]

theorem Agrees.sameTables (agrees : Agrees program s T halted T' halted')
    {t t' : Snapshot} (collected : Collected program s T halted t) (collected' : Collected program s T' halted' t') :
    SameTables t t' where
  fileInfos := by
    apply Finmap.ext_lookup
    intro x
    rw [collected.fileInfos, collected'.fileInfos]
    simp only [agrees.finalSignature]
  semanticDiagnostics := by
    apply Finmap.ext_lookup
    intro x
    rw [collected.semanticDiagnostics, collected'.semanticDiagnostics]
    simp only [agrees.dropped x]
  pendingEmit := by
    apply Finmap.ext_lookup
    intro x
    rw [collected.pendingEmit, collected'.pendingEmit, agrees.addedKind]
  emitDiagnostics := by
    apply Finmap.ext_lookup
    intro x
    rw [collected.emitDiagnostics, collected'.emitDiagnostics, agrees.addedKind]
  changedFiles := collected.changedFiles.trans collected'.changedFiles.symm
end

section
variable {program : CompilerProgram} {s : Snapshot} {order order' : Enumeration s} {st st' : State Path} {level : Bool}

/-- Some search may come to a file that affects the global scope. -/
def Stops (program : CompilerProgram) (s : Snapshot) : Prop :=
  ∃ a level, Source program s a ∧ MayStop program s a level

/-- Some search may come to a file of the default library that nothing else handles. -/
def VisitsLibrary (program : CompilerProgram) (s : Snapshot) : Prop :=
  ∃ a level x, Source program s a ∧ MayVisit program s a level x ∧ x ∉ program.ownFiles ∧ ¬ Affected program s x

section
variable (swept : Swept program order (Affected program s) st) (swept' : Swept program order' (Affected program s) st')
include swept swept'

theorem Swept.handles (clear : ¬ (Stops program s ∧ VisitsLibrary program s)) {x : Path}
    (other : ¬ Affected program s x) (handled : handledBy program s st.log level x) :
    ∃ level', level ≤ level' ∧ handledBy program s st'.log level' x := by
  obtain ⟨unchanged, visited | ⟨halted, own⟩⟩ := handled
  · obtain ⟨-, a, affected, source, may⟩ := swept.visits x level visited
    rcases swept'.visited affected source may with ⟨l, above, logged⟩ | ⟨l, above, logged⟩
    · exact ⟨l, above, unchanged, .inl logged⟩
    · by_cases own : x ∈ program.ownFiles
      · exact ⟨l, above, unchanged, .inr ⟨logged, own⟩⟩
      · obtain ⟨b, -, source', stop⟩ := swept'.stops l logged
        exact absurd ⟨⟨b, l, source', stop⟩, a, level, x, source, may, own, other⟩ clear
  · obtain ⟨a, affected, source, may⟩ := swept.stops level halted
    obtain ⟨l, above, logged⟩ := swept'.stopped affected source may
    exact ⟨l, above, unchanged, .inr ⟨logged, own⟩⟩

theorem Swept.halts (halted : Halts st.log) : Halts st'.log := by
  obtain ⟨level, logged⟩ := halted
  obtain ⟨a, affected, source, may⟩ := swept.stops level logged
  obtain ⟨l, -, logged'⟩ := swept'.stopped affected source may
  exact ⟨l, logged'⟩
end

theorem eq_true_of_le (above : true ≤ level) : level = true := by
  cases level with
  | true => rfl
  | false => exact absurd above (by decide)

theorem Swept.agrees
    (swept : Swept program order (Affected program s) st) (swept' : Swept program order' (Affected program s) st')
    (clear : ¬ (Stops program s ∧ VisitsLibrary program s)) :
    Agrees program s (handledBy program s st.log) (Halts st.log) (handledBy program s st'.log) (Halts st'.log) where
  high x other := by
    constructor
    · intro handled
      obtain ⟨level, above, handled'⟩ := swept.handles swept' clear other handled
      exact eq_true_of_le above ▸ handled'
    · intro handled
      obtain ⟨level, above, handled'⟩ := swept'.handles swept clear other handled
      exact eq_true_of_le above ▸ handled'
  any x other := by
    constructor
    · rintro ⟨level, handled⟩
      obtain ⟨level', -, handled'⟩ := swept.handles swept' clear other handled
      exact ⟨level', handled'⟩
    · rintro ⟨level, handled⟩
      obtain ⟨level', -, handled'⟩ := swept'.handles swept clear other handled
      exact ⟨level', handled'⟩
  halted := ⟨swept.halts swept', swept'.halts swept⟩
end

section
variable {program : CompilerProgram} {s : Snapshot} {changed : Path → Prop} {f x : Path}

def GlobalPath (program : CompilerProgram) (s : Snapshot) (c : Path) : Prop :=
  c ∈ s.changedFilesSet ∧ ∃ f, program.getSourceFileByPath c = some f ∧ AffectsGlobalScope s f ∧
    SignatureChanged program s f

theorem AffectedBy.trans {c : Path} (first : AffectedBy program s changed f)
    (target : program.getSourceFileByPath c = some f) (second : AffectedBy program s (· = c) x) :
    AffectedBy program s changed x := by
  induction second with
  | changed same found =>
    cases same
    cases target.symm.trans found
    exact first
  | referencing _ signature shared edge ih => exact .referencing ih signature shared edge

theorem AffectedBy.single (affected : AffectedBy program s changed x) : ∃ c, changed c ∧ AffectedBy program s (· = c) x := by
  induction affected with
  | @changed c f member found => exact ⟨c, member, .changed rfl found⟩
  | referencing _ signature shared edge ih =>
    obtain ⟨c, member, reached⟩ := ih
    exact ⟨c, member, .referencing reached signature shared edge⟩

theorem noticed_imp_globalPath {order : Enumeration s} (noticed : Noticed program order) : ∃ c, GlobalPath program s c := by
  obtain ⟨pre, c, post, split, f, target, scope, signature, -⟩ := noticed
  exact ⟨c, (order.mem_changed c).mp (by simp [split]), f, target, scope, signature⟩

theorem exists_first {list : List Path} (affected : AffectedBy program s (· ∈ list) x) :
    ∃ pre c post, list = pre ++ c :: post ∧ AffectedBy program s (· = c) x ∧ ¬ AffectedBy program s (· ∈ pre) x := by
  induction list using List.reverseRecOn with
  | nil => exact absurd affected (not_affectedBy_nothing (by simp) x)
  | append_singleton list c ih =>
    by_cases earlier : AffectedBy program s (· ∈ list) x
    · obtain ⟨pre, c', post, rfl, first, fresh⟩ := ih earlier
      exact ⟨pre, c', post ++ [c], by simp, first, fresh⟩
    obtain ⟨c', member, reached⟩ := affected.single
    rcases List.mem_append.mp member with old | new
    · exact absurd (reached.mono (by rintro _ rfl; exact old)) earlier
    · cases List.mem_singleton.mp new
      exact ⟨list, c, [], rfl, reached, earlier⟩

/-- A change of the global scope that no other change leads to is noticed in every order:
the first path that leads to it is one of a global change, and first to its own file. -/
theorem noticed_of_unreached (global : ∃ c, c ∈ s.changedFilesSet ∧ program.getSourceFileByPath c = some f)
    (unreached : ¬ AffectedBy program s (fun c => c ∈ s.changedFilesSet ∧ ¬ GlobalPath program s c) f)
    (order : Enumeration s) : Noticed program order := by
  obtain ⟨c₀, changed₀, target₀⟩ := global
  have affected : AffectedBy program s (· ∈ order.changed) f :=
    .changed ((order.mem_changed c₀).mpr changed₀) target₀
  obtain ⟨pre, c, post, split, reached, fresh⟩ := exists_first affected
  have changed : c ∈ s.changedFilesSet := (order.mem_changed c).mp (by simp [split])
  have global : GlobalPath program s c := by
    by_contra other
    exact unreached (reached.mono (by rintro _ rfl; exact ⟨changed, other⟩))
  obtain ⟨-, g, target, scope, signature⟩ := global
  exact ⟨pre, c, post, split, g, target, scope, signature, fun earlier => fresh (earlier.trans target reached)⟩
end

section
variable {program : CompilerProgram} {s : Snapshot}

/-- Either some change of the global scope is noticed in every order, or there is none and
the searches do not both stop and visit library files. -/
def OrderFree (program : CompilerProgram) (s : Snapshot) : Prop :=
  (∃ c f, GlobalPath program s c ∧ program.getSourceFileByPath c = some f ∧
    ¬ AffectedBy program s (fun c => c ∈ s.changedFilesSet ∧ ¬ GlobalPath program s c) f) ∨
  ((∀ c, ¬ GlobalPath program s c) ∧
    (s.options.assumeChangesOnlyAffectDirectDependencies = true ∨ ¬ (Stops program s ∧ VisitsLibrary program s)))

theorem OrderFree.agrees (free : OrderFree program s) {order order' : Enumeration s} {T T' : Handled}
    {halted halted' : Prop} (completes : Completes program order T halted)
    (completes' : Completes program order' T' halted') : Agrees program s T halted T' halted' := by
  rcases free with ⟨c, f, global, target, unreached⟩ | ⟨none, quiet⟩
  · have noticed : ∀ order : Enumeration s, Noticed program order :=
      noticed_of_unreached ⟨c, global.1, target⟩ unreached
    cases completes with
    | noticed _ =>
      cases completes' with
      | noticed _ => exact .refl _ _
      | direct unnoticed _ => exact absurd (noticed order') unnoticed
      | swept unnoticed _ _ => exact absurd (noticed order') unnoticed
    | direct unnoticed _ => exact absurd (noticed order) unnoticed
    | swept unnoticed _ _ => exact absurd (noticed order) unnoticed
  have unnoticed : ∀ order : Enumeration s, ¬ Noticed program order := fun order noticed => by
    obtain ⟨c, global⟩ := noticed_imp_globalPath noticed
    exact none c global
  cases completes with
  | noticed noticed => exact absurd noticed (unnoticed order)
  | direct _ direct =>
    cases completes' with
    | noticed noticed => exact absurd noticed (unnoticed order')
    | direct _ _ => exact .refl _ _
    | swept _ everywhere _ => cases direct.symm.trans everywhere
  | swept _ everywhere swept =>
    cases completes' with
    | noticed noticed => exact absurd noticed (unnoticed order')
    | direct _ direct => cases direct.symm.trans everywhere
    | swept _ _ swept' =>
      refine swept.agrees swept' (quiet.resolve_left fun direct => ?_)
      cases direct.symm.trans everywhere

/-- Any two orders leave the same tables. -/
theorem collectAllAffectedFiles_orderFree (consistent : Consistent program s) (free : OrderFree program s)
    (order order' : Enumeration s) :
    ∃ t t', collectAllAffectedFiles program order = .ok t ∧ collectAllAffectedFiles program order' = .ok t' ∧
      SameTables t t' := by
  by_cases changes : s.changedFilesSet = ∅
  · exact ⟨s, s, if_pos changes, if_pos changes, rfl, rfl, rfl, rfl, rfl⟩
  · obtain ⟨T, halted, t, run, completes, collected⟩ := collectAllAffectedFiles_spec order consistent changes
    obtain ⟨T', halted', t', run', completes', collected'⟩ := collectAllAffectedFiles_spec order' consistent changes
    exact ⟨t, t', run, run', (free.agrees completes completes').sameTables collected collected'⟩
end

/-- The script `a.ts` declares globals and refers to `b.ts`; both have changed. -/
def changedPair : CompilerProgram := .ofFiles ["a.ts", "b.ts", "c.ts"] threeFiles_nodup fun _ => false

def changedPairSnapshot : Snapshot where
  fileInfos := HashMap.ofKeys {"a.ts", "b.ts", "c.ts"} fun f => some ⟨changedPair.version f, "", f = "a.ts", .none⟩
  referencedMap := Finmap.singleton "a.ts" {"b.ts"}
  semanticDiagnosticsPerFile := Finmap.singleton "c.ts" ⟨[], []⟩
  changedFilesSet := {"a.ts", "b.ts"}

/-- From `b.ts` on, the change of the script is not noticed and the searches drop the
diagnostics of `c.ts`; from `a.ts` on they are kept. -/
theorem changedPair_dependsOnOrder :
    (∃ t, collectAllAffectedFiles changedPair (.startingWith (s := changedPairSnapshot) "a.ts" (by decide)) = .ok t ∧
      "c.ts" ∈ t.semanticDiagnosticsPerFile) ∧
    ∃ t, collectAllAffectedFiles changedPair (.startingWith (s := changedPairSnapshot) "b.ts" (by decide)) = .ok t ∧
      "c.ts" ∉ t.semanticDiagnosticsPerFile :=
  ⟨⟨_, rfl, by decide⟩, ⟨_, rfl, by decide⟩⟩

theorem circle_orderFree : OrderFree circle circleSnapshot := by
  refine .inr ⟨?_, .inr ?_⟩
  · rintro c ⟨changed, f, target, scope, -⟩
    cases Finset.mem_singleton.mp changed
    cases (by decide : circle.getSourceFileByPath "a.ts" = some "a.ts").symm.trans target
    exact absurd scope (by decide)
  -- No file affects the global scope.
  have local_ : ∀ p, ¬ AffectsGlobalScope circleSnapshot p := by
    intro p
    unfold AffectsGlobalScope circleSnapshot
    rw [HashMap.lookup_ofKeys]
    split <;> simp
  rintro ⟨⟨a, level, -, ⟨-, q, -, scope⟩ | ⟨-, -, p, scope, -⟩⟩, -⟩
  · exact local_ q scope
  · exact local_ p scope

theorem circle_sameTables : OrderFree circle circleSnapshot ∧ ∀ order order' : Enumeration circleSnapshot,
    ∃ t t', collectAllAffectedFiles circle order = .ok t ∧ collectAllAffectedFiles circle order' = .ok t' ∧
      SameTables t t' :=
  ⟨circle_orderFree, collectAllAffectedFiles_orderFree circle_consistent circle_orderFree⟩

end TypeScriptRs.Incremental
