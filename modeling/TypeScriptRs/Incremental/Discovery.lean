import TypeScriptRs.Incremental.AffectedFiles

/-! The first half of a collection: what is affected and noticed. -/
namespace TypeScriptRs.Incremental
open Machine AffectedFilesHandler List

/-- What a snapshot promises about the program it was made for. -/
structure Consistent (program : CompilerProgram) (s : Snapshot) : Prop where
  infos : ∀ f ∈ program.getSourceFiles, f ∈ s.fileInfos
  referencing : ∀ p ∈ s.referencedMap, p ∈ program.getSourceFiles
  allFiles : ∀ files, s.allFilesExcludingDefaultLibraryFile = some files →
    ∀ f, f ∈ files ↔ f ∈ program.ownFiles

section
variable (program : CompilerProgram) (s : Snapshot)

/-- The recomputed shape signature of a file differs from the stored one. -/
def SignatureChanged (f : Path) : Prop :=
  ∃ info, s.fileInfos.lookup f = some info ∧ newSignature program f info false ≠ info.signature

def AffectsGlobalScope (f : Path) : Prop :=
  ((s.fileInfos.lookup f).map FileInfo.affectsGlobalScope).getD false = true

instance (f : Path) : Decidable (AffectsGlobalScope s f) := inferInstanceAs (Decidable (_ = _))

/-- The files that some changed paths lead to: their own files, and with each file whose
signature changed the files that refer to it. -/
inductive AffectedBy (changed : Path → Prop) : Path → Prop
  | changed {c f : Path} : changed c → program.getSourceFileByPath c = some f → AffectedBy changed f
  | referencing {f q : Path} : AffectedBy changed f → SignatureChanged program s f →
      s.options.isolatedModules = false → q ∈ s.referencedBy f → AffectedBy changed q

/-- A changed path is the first to lead to its file, and the change of that file affects
the global scope. -/
def ChangesGlobalScope (before : List Path) (c : Path) : Prop :=
  ∃ f, program.getSourceFileByPath c = some f ∧ AffectsGlobalScope s f ∧ SignatureChanged program s f ∧
    ¬ AffectedBy program s (· ∈ before) f
end

section
variable {program : CompilerProgram} {s : Snapshot}
variable {changed : Path → Prop} {f p : Path} {t : Snapshot} {h : AffectedFilesHandler} {before : List Path}
  {result : Finset Path}

theorem AffectedBy.mono {changed' : Path → Prop} (all : ∀ c, changed c → changed' c)
    (h : AffectedBy program s changed f) : AffectedBy program s changed' f := by
  induction h with
  | changed member found => exact .changed (all _ member) found
  | referencing _ signature shared edge ih => exact .referencing ih signature shared edge

theorem AffectedBy.least {U : Path → Prop} (h : AffectedBy program s changed f)
    (roots : ∀ c f, changed c → program.getSourceFileByPath c = some f → U f)
    (closed : s.options.isolatedModules = false → ∀ g, U g → SignatureChanged program s g →
      ∀ q ∈ s.referencedBy g, U q) : U f := by
  induction h with
  | changed member found => exact roots _ _ member found
  | referencing _ signature shared edge ih => exact closed shared _ ih signature _ edge

/-- The handler works on the snapshot it was started with, but for the cached list. -/
def SameSnapshot (program : CompilerProgram) (s t : Snapshot) : Prop :=
  ∃ cache, t = { s with allFilesExcludingDefaultLibraryFile := cache } ∧
    ∀ files, cache = some files → ∀ f, f ∈ files ↔ f ∈ program.ownFiles

theorem Consistent.sameSnapshot (consistent : Consistent program s) : SameSnapshot program s s :=
  ⟨s.allFilesExcludingDefaultLibraryFile, rfl, consistent.allFiles⟩

theorem Consistent.file_of_referencedBy (consistent : Consistent program s) {q : Path}
    (edge : q ∈ s.referencedBy p) : q ∈ program.getSourceFiles :=
  consistent.referencing q (Finmap.mem_keys.mp (Finset.mem_filter.mp edge).1)

theorem SameSnapshot.fileInfos (same : SameSnapshot program s t) : t.fileInfos = s.fileInfos := by
  obtain ⟨cache, rfl, -⟩ := same
  rfl

theorem SameSnapshot.allFiles (same : SameSnapshot program s t) (first : Option Path)
    (inside : ∀ f, first = some f → f ∈ program.getSourceFiles) :
    (∀ f, f ∈ (t.getAllFilesExcludingDefaultLibraryFile program first).1 ↔ f ∈ program.ownFiles) ∧
    SameSnapshot program s (t.getAllFilesExcludingDefaultLibraryFile program first).2 := by
  obtain ⟨cache, rfl, listed⟩ := same
  cases cache with
  | some files => exact ⟨listed files rfl, some files, rfl, listed⟩
  | none =>
    have all : ∀ f, f ∈ (first.toList ++ program.getSourceFiles.filter fun f => first ≠ some f).filter
        (fun f => !program.isSourceFileDefaultLibrary f) ↔ f ∈ program.ownFiles := by
      intro f
      simp only [CompilerProgram.ownFiles, mem_filter, mem_append, Option.mem_toList]
      constructor
      · rintro ⟨here | ⟨member, -⟩, own⟩
        · exact ⟨inside f here, own⟩
        · exact ⟨member, own⟩
      · rintro ⟨member, own⟩
        by_cases here : first = some f
        · exact ⟨.inl here, own⟩
        · exact ⟨.inr ⟨member, by simpa using here⟩, own⟩
    refine ⟨all, some _, rfl, ?_⟩
    rintro files ⟨⟩ f
    exact all f

theorem updateShapeSignature_eq (consistent : Consistent program s)
    (same : SameSnapshot program s h.snapshot) (file : f ∈ program.getSourceFiles)
    (useVersion : Bool) : ∃ info, s.fileInfos.lookup f = some info ∧
      h.updateShapeSignature program f useVersion = .ok (if f ∈ h.updatedSignatures then (false, h) else
        (newSignature program f info useVersion != info.signature,
          { h with updatedSignatures := h.updatedSignatures.insert f (newSignature program f info useVersion) })) := by
  obtain ⟨info, found⟩ := Finmap.mem_iff.mp (consistent.infos f file)
  refine ⟨info, found, ?_⟩
  unfold AffectedFilesHandler.updateShapeSignature
  rw [same.fileInfos]
  cases cached : h.updatedSignatures.lookup f with
  | some signature =>
    have member : f ∈ h.updatedSignatures := Finmap.mem_iff.mpr ⟨signature, cached⟩
    simp [member]
  | none =>
    have fresh : f ∉ h.updatedSignatures := Finmap.lookup_eq_none.mp cached
    simp [fresh, found]

/-- The signatures updated so far: those of the files found, as recomputed. -/
structure Recomputed (program : CompilerProgram) (s : Snapshot) (h : AffectedFilesHandler) : Prop where
  snapshot : SameSnapshot program s h.snapshot
  files : ∀ f ∈ h.updatedSignatures, f ∈ program.getSourceFiles
  values : ∀ f signature, h.updatedSignatures.lookup f = some signature →
    ∃ info, s.fileInfos.lookup f = some info ∧ signature = newSignature program f info false

theorem Recomputed.update (consistent : Consistent program s)
    (known : Recomputed program s h) (file : f ∈ program.getSourceFiles) :
    ∃ changed updated, h.updateShapeSignature program f false = .ok (changed, { h with updatedSignatures := updated }) ∧
      Recomputed program s { h with updatedSignatures := updated } ∧
      (∀ g, g ∈ updated ↔ g = f ∨ g ∈ h.updatedSignatures) ∧
      (changed = true ↔ f ∉ h.updatedSignatures ∧ SignatureChanged program s f) := by
  obtain ⟨info, found, run⟩ := updateShapeSignature_eq consistent known.snapshot file false
  by_cases cached : f ∈ h.updatedSignatures
  · refine ⟨false, h.updatedSignatures, by rw [run, if_pos cached], known, fun g => ?_, by simp [cached]⟩
    constructor
    · exact .inr
    · rintro (rfl | member)
      · exact cached
      · exact member
  refine ⟨_, h.updatedSignatures.insert f (newSignature program f info false), by rw [run, if_neg cached],
    ⟨known.snapshot, fun g member => ?_, fun g signature lookup => ?_⟩,
    fun g => Finmap.mem_insert, ?_⟩
  · rcases Finmap.mem_insert.mp member with rfl | member
    · exact file
    · exact known.files g member
  · rw [HashMap.lookup_insert_if] at lookup
    split at lookup
    · rename_i same
      subst same
      exact ⟨info, found, (Option.some.inj lookup).symm⟩
    · exact known.values g signature lookup
  · simp [cached, SignatureChanged, found]

structure Looping (program : CompilerProgram) (s : Snapshot) (changed : Path → Prop) (before : Path → Prop)
    (queue : List Path) (seen found : Finset Path) (h : AffectedFilesHandler) : Prop where
  known : Recomputed program s h
  keys : ∀ q ∈ queue, q ∈ s.referencedMap.keys
  sound : ∀ f ∈ h.updatedSignatures, AffectedBy program s changed f
  queued : ∀ q ∈ queue, AffectedBy program s changed q
  closed : ∀ g ∈ h.updatedSignatures, SignatureChanged program s g → ∀ q ∈ s.referencedBy g,
    q ∈ h.updatedSignatures ∨ q ∈ queue
  passed : ∀ q ∈ seen, q ∈ h.updatedSignatures
  listed : ∀ f ∈ found, f ∈ h.updatedSignatures
  kept : ∀ f, before f → f ∈ h.updatedSignatures
  all : ∀ f ∈ h.updatedSignatures, before f ∨ f ∈ found

def turnsLeft (s : Snapshot) (queue : List Path) (seen : Finset Path) : Nat :=
  queue.length + (s.referencedMap.keys \ seen).card * s.referencedMap.keys.card

theorem Enumeration.length_referencedBy (order : Enumeration s) (p : Path) :
    (order.referencedBy p).length ≤ s.referencedMap.keys.card := by
  have whole : (order.referencedBy p).toFinset ⊆ s.referencedMap.keys := by
    intro q hq
    exact (Finset.mem_filter.mp ((order.mem_referencedBy p q).mp (mem_toFinset.mp hq))).1
  rw [← toFinset_card_of_nodup (order.referencedBy_nodup p)]
  exact Finset.card_le_card whole

section
variable (consistent : Consistent program s) (order : Enumeration s) (shared : s.options.isolatedModules = false)
include consistent order shared

theorem Looping.visit {before : Path → Prop} {queue : List Path} {seen found : Finset Path} (l : Looping program s changed before (p :: queue) seen found h) :
    ∃ again updated, h.updateShapeSignature program p false = .ok (again, { h with updatedSignatures := updated }) ∧
      Looping program s changed before (if again then (order.referencedBy p).reverse ++ queue else queue)
        (insert p seen) (insert p found) { h with updatedSignatures := updated } := by
  have file : p ∈ program.getSourceFiles := consistent.referencing p (Finmap.mem_keys.mp (l.keys p (by simp)))
  have here : AffectedBy program s changed p := l.queued p (by simp)
  obtain ⟨again, updated, run, known, members, changes⟩ := l.known.update consistent file
  have mine : p ∈ updated := (members p).mpr (.inl rfl)
  have others : ∀ g ∈ h.updatedSignatures, g ∈ updated := fun g member => (members g).mpr (.inr member)
  refine ⟨again, updated, run, known, ?_, ?_, ?_, ?_, ?_, ?_, ?_, ?_⟩
  · intro q member
    cases again with
    | true =>
      rcases mem_append.mp member with new | old
      · exact (Finset.mem_filter.mp ((order.mem_referencedBy p q).mp (mem_reverse.mp new))).1
      · exact l.keys q (by simp [old])
    | false => exact l.keys q (mem_cons_of_mem _ member)
  · intro f member
    rcases (members f).mp member with rfl | old
    · exact here
    · exact l.sound f old
  · intro q member
    cases again with
    | true =>
      rcases mem_append.mp member with new | old
      · exact .referencing here (changes.mp rfl).2 shared ((order.mem_referencedBy p q).mp (mem_reverse.mp new))
      · exact l.queued q (by simp [old])
    | false => exact l.queued q (mem_cons_of_mem _ member)
  · intro g member signature q edge
    have keep : q ∈ h.updatedSignatures ∨ q ∈ p :: queue → q ∈ updated ∨
        q ∈ (if again then (order.referencedBy p).reverse ++ queue else queue) := by
      rintro (old | waiting)
      · exact .inl (others q old)
      · rcases mem_cons.mp waiting with rfl | waiting
        · exact .inl mine
        · refine .inr ?_
          cases again <;> simp [waiting]
    by_cases old : g ∈ h.updatedSignatures
    · exact keep (l.closed g old signature q edge)
    -- A file that was not updated before is queued with its referencing files.
    rcases (members g).mp member with rfl | old'
    · rw [changes.mpr ⟨old, signature⟩]
      exact .inr (by simp [(order.mem_referencedBy g q).mpr edge])
    · exact absurd old' old
  · intro q member
    rcases Finset.mem_insert.mp member with rfl | old
    · exact mine
    · exact others q (l.passed q old)
  · intro f member
    rcases Finset.mem_insert.mp member with rfl | old
    · exact mine
    · exact others f (l.listed f old)
  · exact fun f old => others f (l.kept f old)
  intro f member
  rcases (members f).mp member with rfl | old
  · exact .inr (Finset.mem_insert_self f found)
  · rcases l.all f old with earlier | later
    · exact .inl earlier
    · exact .inr (Finset.mem_insert_of_mem later)

theorem affectedLoop_spec {before : Path → Prop} (fuel : Nat) :
    ∀ (queue : List Path) (seen found : Finset Path) (h : AffectedFilesHandler),
      Looping program s changed before queue seen found h → turnsLeft s queue seen < fuel →
      ∃ seen' found' updated, affectedLoop program order fuel queue seen found h =
          .ok (found', { h with updatedSignatures := updated }) ∧ found ⊆ found' ∧
        Looping program s changed before [] seen' found' { h with updatedSignatures := updated } := by
  induction fuel with
  | zero =>
    intro queue seen found h _ enough
    exact absurd enough (Nat.not_lt_zero _)
  | succ fuel ih =>
    intro queue seen found h l enough
    cases queue with
    | nil => exact ⟨seen, found, h.updatedSignatures, rfl, Finset.Subset.refl _, l⟩
    | cons p queue =>
      unfold affectedLoop
      by_cases old : p ∈ seen
      · rw [if_pos old]
        have rest : Looping program s changed before queue seen found h :=
          { l with
            keys := fun q hq => l.keys q (by simp [hq])
            queued := fun q hq => l.queued q (by simp [hq])
            closed := fun g member signature q edge => by
              rcases l.closed g member signature q edge with done | waiting
              · exact .inl done
              · rcases mem_cons.mp waiting with rfl | waiting
                · exact .inl (l.passed q old)
                · exact .inr waiting }
        refine ih queue seen found h rest ?_
        simp only [turnsLeft, length_cons] at enough ⊢
        omega
      have key := l.keys p (by simp)
      have file : p ∈ program.getSourceFiles := consistent.referencing p (Finmap.mem_keys.mp key)
      obtain ⟨again, updated, run, rest⟩ := l.visit consistent order shared
      have fewer : (s.referencedMap.keys \ insert p seen).card + 1 = (s.referencedMap.keys \ seen).card := by
        rw [Finset.sdiff_insert, Finset.card_erase_add_one (Finset.mem_sdiff.mpr ⟨key, old⟩)]
      have pushed := order.length_referencedBy p
      obtain ⟨seen', found', updated', ran, more, done⟩ := ih _ _ _ _ rest (by
        simp only [turnsLeft, length_cons] at enough ⊢
        rw [← fewer, Nat.add_mul] at enough
        cases again <;> simp <;> omega)
      refine ⟨seen', found', updated', ?_, (Finset.subset_insert p found).trans more, done⟩
      rw [if_neg old, CompilerProgram.getSourceFileByPath, program.own p file]
      simp only [run, Outcome.monad_bind, Outcome.bind_ok]
      exact ran
end

def Idle (h : AffectedFilesHandler) : Prop :=
  h.dtsMayChange = [] ∧ h.filesToRemoveDiagnostics = ∅ ∧ h.cleanedDiagnosticsOfLibFiles = false ∧
    h.seenFileAndReferences = ∅

/-- The state after some of the changed paths have been handled. -/
structure Found (program : CompilerProgram) (s : Snapshot) (before : List Path) (result : Finset Path)
    (h : AffectedFilesHandler) : Prop where
  known : Recomputed program s h
  sound : ∀ f ∈ h.updatedSignatures, AffectedBy program s (· ∈ before) f
  roots : ∀ c f, c ∈ before → program.getSourceFileByPath c = some f → f ∈ h.updatedSignatures
  closed : s.options.isolatedModules = false → ∀ g ∈ h.updatedSignatures, SignatureChanged program s g →
    ∀ q ∈ s.referencedBy g, q ∈ h.updatedSignatures
  result : ∀ f, f ∈ result ↔ f ∈ h.updatedSignatures
  global : h.hasAllFilesExcludingDefaultLibraryFile = true ↔
    ∃ pre c post, before = pre ++ c :: post ∧ ChangesGlobalScope program s pre c
  idle : Idle h

theorem Found.affected_iff (found : Found program s before result h) (f : Path) :
    f ∈ h.updatedSignatures ↔ AffectedBy program s (· ∈ before) f :=
  ⟨found.sound f, fun affected => affected.least (fun c f member => found.roots c f member) found.closed⟩

theorem Found.start (consistent : Consistent program s) : Found program s [] ∅ (AffectedFilesHandler.start s) where
  known := ⟨consistent.sameSnapshot, fun f member => absurd member Finmap.notMem_empty, fun f signature found => by
    simp [AffectedFilesHandler.start] at found⟩
  sound f member := absurd member Finmap.notMem_empty
  roots c f member := by cases member
  closed _ g member := absurd member Finmap.notMem_empty
  result f := ⟨fun member => absurd member (Finset.notMem_empty f), fun member => absurd member Finmap.notMem_empty⟩
  global := by simp [AffectedFilesHandler.start]
  idle := ⟨rfl, rfl, rfl, rfl⟩

theorem changesGlobalScope_append (before : List Path) (c : Path) :
    (∃ pre c' post, before ++ [c] = pre ++ c' :: post ∧ ChangesGlobalScope program s pre c') ↔
    (∃ pre c' post, before = pre ++ c' :: post ∧ ChangesGlobalScope program s pre c') ∨
      ChangesGlobalScope program s before c := by
  constructor
  · rintro ⟨pre, c', post, split, change⟩
    rcases eq_nil_or_concat post with rfl | ⟨post, last, rfl⟩
    · obtain ⟨rfl, same⟩ := append_inj' split rfl
      cases same
      exact .inr change
    · rw [concat_eq_append, ← cons_append, ← append_assoc] at split
      exact .inl ⟨pre, c', post, (append_inj' split rfl).1, change⟩
  · rintro (⟨pre, c', post, rfl, change⟩ | change)
    · exact ⟨pre, c', post ++ [c], by simp, change⟩
    · exact ⟨before, c, [], rfl, change⟩

theorem Found.append {affected : Finset Path} {h' : AffectedFilesHandler} {c : Path}
    (found : Found program s before result h) (known : Recomputed program s h')
    (members : ∀ f, f ∈ h'.updatedSignatures ↔ f ∈ h.updatedSignatures ∨ f ∈ affected)
    (sound : ∀ f ∈ affected, AffectedBy program s (· ∈ before ++ [c]) f)
    (root : ∀ f, program.getSourceFileByPath c = some f → f ∈ h'.updatedSignatures)
    (closed : s.options.isolatedModules = false → ∀ g ∈ h'.updatedSignatures, SignatureChanged program s g →
      ∀ q ∈ s.referencedBy g, q ∈ h'.updatedSignatures)
    (global : h'.hasAllFilesExcludingDefaultLibraryFile = true ↔
      h.hasAllFilesExcludingDefaultLibraryFile = true ∨ ChangesGlobalScope program s before c)
    (idle : Idle h') : Found program s (before ++ [c]) (result ∪ affected) h' where
  known := known
  sound f member := by
    rcases (members f).mp member with old | new
    · exact (found.sound f old).mono fun c' => mem_append_left _
    · exact sound f new
  roots c' f member target := by
    rcases mem_append.mp member with old | new
    · exact (members f).mpr (.inl (found.roots c' f old target))
    · rw [mem_singleton.mp new] at target
      exact root f target
  closed := closed
  result f := by
    rw [Finset.mem_union, found.result, members]
  global := by
    rw [global, found.global, changesGlobalScope_append]
  idle := idle

theorem noteGlobalScope_spec (known : Recomputed program s h) (idle : Idle h) {file : Path}
    (inside : file ∈ program.getSourceFiles) :
    Recomputed program s (noteGlobalScope program file h) ∧ Idle (noteGlobalScope program file h) ∧
      (noteGlobalScope program file h).updatedSignatures = h.updatedSignatures ∧
      ((noteGlobalScope program file h).hasAllFilesExcludingDefaultLibraryFile = true ↔
        h.hasAllFilesExcludingDefaultLibraryFile = true ∨ AffectsGlobalScope s file) := by
  unfold noteGlobalScope AffectsGlobalScope
  rw [known.snapshot.fileInfos]
  split
  · rename_i scope
    have cached := (known.snapshot.allFiles (some file) (by rintro f ⟨⟩; exact inside)).2
    exact ⟨⟨cached, known.files, known.values⟩, idle, rfl, by simp [scope]⟩
  · rename_i scope
    exact ⟨known, idle, rfl, by simp [scope]⟩

variable (consistent : Consistent program s) (order : Enumeration s)
include consistent order

theorem getFilesAffectedBy_spec (found : Found program s before result h) (c : Path) :
    ∃ affected h', getFilesAffectedBy program order c h = .ok (affected, h') ∧
      Found program s (before ++ [c]) (result ∪ affected) h' := by
  unfold getFilesAffectedBy
  cases target : program.getSourceFileByPath c with
  | none =>
    refine ⟨∅, h, rfl, found.append found.known (by simp) (by simp) ?_ found.closed ?_ found.idle⟩
    · intro f here
      rw [target] at here
      cases here
    · simp [ChangesGlobalScope, target]
  | some file =>
    have inside : file ∈ program.getSourceFiles := program.target c file target
    have mine : AffectedBy program s (· ∈ before ++ [c]) file := .changed (by simp) target
    obtain ⟨changed, updated, run, known, members, changes⟩ := found.known.update consistent inside
    have global : ChangesGlobalScope program s before c ↔ AffectsGlobalScope s file ∧ changed = true := by
      rw [changes, found.affected_iff]
      constructor
      · rintro ⟨f, here, scope, signature, fresh⟩
        cases target.symm.trans here
        exact ⟨scope, fresh, signature⟩
      · rintro ⟨scope, fresh, signature⟩
        exact ⟨file, target, scope, signature, fresh⟩
    simp only [run, Outcome.monad_bind, Outcome.bind_ok]
    cases changed with
    | false =>
      refine ⟨{file}, _, rfl, found.append known (fun f => ?_) ?_ ?_ ?_ ?_ found.idle⟩
      · rw [members, Finset.mem_singleton, or_comm]
      · intro f member
        rw [Finset.mem_singleton.mp member]
        exact mine
      · intro f here
        cases target.symm.trans here
        exact (members file).mpr (.inl rfl)
      · intro shared g member signature q edge
        -- An updated file that is not reported as changed was there before.
        have old : g ∈ h.updatedSignatures := by
          rcases (members g).mp member with rfl | old
          · by_contra fresh
            cases changes.mpr ⟨fresh, signature⟩
          · exact old
        exact (members q).mpr (.inr (found.closed shared g old signature q edge))
      · simp [global]
    | true =>
      obtain ⟨fresh, signature⟩ := changes.mp rfl
      obtain ⟨known₁, idle₁, updated₁, flag⟩ := noteGlobalScope_spec known found.idle inside
      have noted : (noteGlobalScope program file
            { h with updatedSignatures := updated }).hasAllFilesExcludingDefaultLibraryFile = true ↔
          h.hasAllFilesExcludingDefaultLibraryFile = true ∨ ChangesGlobalScope program s before c := by
        rw [flag, global]
        simp
      generalize noteGlobalScope program file { h with updatedSignatures := updated } = h₁ at *
      cases shared : s.options.isolatedModules with
      | true =>
        refine ⟨{file}, h₁, by simp [Outcome.monad_pure], found.append known₁ (fun f => ?_) ?_ ?_ ?_ noted idle₁⟩
        · rw [updated₁, members, Finset.mem_singleton, or_comm]
        · intro f member
          rw [Finset.mem_singleton.mp member]
          exact mine
        · intro f here
          cases target.symm.trans here
          rw [updated₁]
          exact (members file).mpr (.inl rfl)
        · intro separate
          rw [shared] at separate
          cases separate
      | false =>
        have loop : Looping program s (· ∈ before ++ [c]) (· ∈ h.updatedSignatures) (order.referencedBy file).reverse
            {file} {file} h₁ := by
          have other : ∀ g ∈ h.updatedSignatures, g ∈ h₁.updatedSignatures := fun g member => by
            rw [updated₁]
            exact (members g).mpr (.inr member)
          have here : file ∈ h₁.updatedSignatures := by
            rw [updated₁]
            exact (members file).mpr (.inl rfl)
          have origin : ∀ g ∈ h₁.updatedSignatures, g = file ∨ g ∈ h.updatedSignatures := fun g member => by
            rw [updated₁] at member
            exact (members g).mp member
          have edge : ∀ q ∈ (order.referencedBy file).reverse, q ∈ s.referencedBy file := fun q member =>
            (order.mem_referencedBy file q).mp (mem_reverse.mp member)
          refine ⟨known₁, fun q member => (Finset.mem_filter.mp (edge q member)).1, fun f member => ?_,
            fun q member => .referencing mine signature shared (edge q member), fun g member changed q referring => ?_,
            fun q member => ?_, fun f member => ?_, other, fun f member => ?_⟩
          · rcases origin f member with rfl | old
            · exact mine
            · exact (found.sound f old).mono fun c' => mem_append_left _
          · rcases origin g member with rfl | old
            · exact .inr (mem_reverse.mpr ((order.mem_referencedBy g q).mpr referring))
            · exact .inl (other q (found.closed shared g old changed q referring))
          · exact Finset.mem_singleton.mp member ▸ here
          · exact Finset.mem_singleton.mp member ▸ here
          · exact (origin f member).elim (fun same => .inr (Finset.mem_singleton.mpr same)) .inl
        obtain ⟨seen, affected, updated₂, ran, more, done⟩ := affectedLoop_spec consistent order shared (affectedFuel s)
          _ _ _ _ loop (by
            have pushed := order.length_referencedBy file
            have keys := Finset.card_le_card (Finset.sdiff_subset : s.referencedMap.keys \ {file} ⊆ _)
            have whole := Nat.mul_le_mul_right s.referencedMap.keys.card keys
            simp only [turnsLeft, affectedFuel, length_reverse, Nat.mul_add, Nat.mul_one]
            omega)
        refine ⟨affected, _, by simpa using ran, found.append done.known (fun f => ?_) (fun f member => ?_) ?_ ?_
          noted idle₁⟩
        · exact ⟨fun member => done.all f member, fun member => member.elim (done.kept f) (done.listed f)⟩
        · exact done.sound f (done.listed f member)
        · intro f here
          cases target.symm.trans here
          exact done.listed file (more (Finset.mem_singleton_self file))
        · intro _ g member changed q edge
          exact (done.closed g member changed q edge).resolve_right (by simp)

theorem foldlM_found (rest : List Path) :
    ∀ (before : List Path) (result : Finset Path) (h : AffectedFilesHandler), Found program s before result h →
    ∃ result' h', rest.foldlM (fun (c : Finset Path × AffectedFilesHandler) file => do
        let (affected, h) ← getFilesAffectedBy program order file c.2
        pure (c.1 ∪ affected, h)) (result, h) = .ok (result', h') ∧
      Found program s (before ++ rest) result' h' := by
  induction rest with
  | nil =>
    intro before result h found
    exact ⟨result, h, rfl, by rwa [append_nil]⟩
  | cons c rest ih =>
    intro before result h found
    obtain ⟨affected, h₁, run, found₁⟩ := getFilesAffectedBy_spec consistent order found c
    obtain ⟨result', h', more, found'⟩ := ih _ _ _ found₁
    refine ⟨result', h', ?_, by rwa [append_assoc] at found'⟩
    rw [foldlM_cons, run]
    exact more

theorem findAffectedFiles_spec :
    ∃ result h, findAffectedFiles program order = .ok (result, h) ∧ Found program s order.changed result h :=
  foldlM_found consistent order order.changed [] ∅ _ (Found.start consistent)
end

def Affected (program : CompilerProgram) (s : Snapshot) : Path → Prop := AffectedBy program s (· ∈ s.changedFilesSet)

theorem Found.affected {program : CompilerProgram} {s : Snapshot} {order : Enumeration s} {result : Finset Path}
    {h : AffectedFilesHandler} (found : Found program s order.changed result h) (f : Path) :
    f ∈ result ↔ Affected program s f := by
  rw [found.result, found.affected_iff]
  exact ⟨.mono fun c => (order.mem_changed c).mp, .mono fun c => (order.mem_changed c).mpr⟩

end TypeScriptRs.Incremental
