import TypeScriptRs.Incremental.Effects
import TypeScriptRs.Lib.Sweep

/-! The second half of a collection: searches of the reference graph at two levels. -/
namespace TypeScriptRs.Incremental
open Machine AffectedFilesHandler Sweep List Outcome

section
variable {program : CompilerProgram} {s : Snapshot} {stopped : Bool} {st' : State Path}

def stopAt (s : Snapshot) (p : Path) : Bool := decide (AffectsGlobalScope s p)

def handledBy (program : CompilerProgram) (s : Snapshot) (log : List (Event Path)) : Handled := fun level x =>
  x ∉ s.changedFilesSet ∧ (.visit x level ∈ log ∨ (.stop level ∈ log ∧ x ∈ program.ownFiles))

def Halts (log : List (Event Path)) : Prop := ∃ level, .stop level ∈ log

section
variable (log : List (Event Path))

theorem handledBy_visit (p : Path) (level : Bool) :
    handledBy program s (log ++ [.visit p level]) = (handledBy program s log).add s level (· = p) := by
  funext high x
  simp only [handledBy, Handled.add, mem_append, mem_singleton, Event.visit.injEq, reduceCtorEq, or_false,
    eq_iff_iff]
  tauto

theorem handledBy_stop (level : Bool) :
    handledBy program s (log ++ [.stop level]) = (handledBy program s log).add s level (· ∈ program.ownFiles) := by
  funext high x
  simp only [handledBy, Handled.add, mem_append, mem_singleton, Event.stop.injEq, reduceCtorEq, or_false,
    eq_iff_iff]
  tauto

theorem halts_visit (p : Path) (level : Bool) : Halts (log ++ [.visit p level]) = Halts log := by
  simp [Halts]

theorem halts_stop (level : Bool) : Halts (log ++ [.stop level]) = True := by
  simp [Halts]
end

def levelOf : Event Path → Bool
  | .visit _ level => level
  | .stop level => level

/-- The code at one affected file and the searches, side by side. Events at the low level
come before those at the high level. -/
structure Mirrors (program : CompilerProgram) (s : Snapshot) (h₀ : AffectedFilesHandler) (done : Path → Prop)
    (list : List DtsMayChange) (a : Path) (earlier : List (Event Path)) (level : Bool) (st : State Path)
    (c : DtsMayChange × AffectedFilesHandler) : Prop where
  split : ∃ here, st.log = earlier ++ here ∧ (level = false → ∀ e ∈ here, levelOf e = false) ∧
    Handling program s h₀ done list a (handledBy program s st.log) (handledBy program s here) (Halts st.log) st.seen c

variable {h₀ : AffectedFilesHandler} {done : Path → Prop} {list : List DtsMayChange} {a : Path}
  {earlier : List (Event Path)} {level : Bool} {st : State Path} {c : DtsMayChange × AffectedFilesHandler}

theorem not_handledBy_high {here : List (Event Path)} (low : ∀ e ∈ here, levelOf e = false) (x : Path) :
    ¬ handledBy program s here true x := by
  rintro ⟨-, visited | ⟨halted, -⟩⟩
  · cases low _ visited
  · cases low _ halted

section
variable (m : Mirrors program s h₀ done list a earlier level st c)
include m

theorem Mirrors.visit (consistent : Consistent program s)
    (member : a ∈ s.changedFilesSet) {p : Path} (file : p ∈ program.getSourceFiles) :
    ∃ c', handleDtsMayChangeOf (s := s) program p level c = .ok c' ∧
      Mirrors program s h₀ done list a earlier level (st.record (.visit p level)) c' := by
  obtain ⟨here, split, low, handling⟩ := m.split
  obtain ⟨c', run, handling'⟩ := handleDtsMayChangeOf_spec consistent handling member file
    fun below => not_handledBy_high (low below)
  refine ⟨c', run, here ++ [.visit p level], ?_, ?_, ?_⟩
  · simp [State.record, split]
  · intro below e he
    rcases mem_append.mp he with old | new
    · exact low below e old
    · rw [mem_singleton.mp new]
      exact below
  · simp only [State.record, handledBy_visit, halts_visit]
    exact handling'

theorem Mirrors.global (consistent : Consistent program s) (member : a ∈ s.changedFilesSet) (p : Path) :
    (stopAt s p = false → handleDtsMayChangeOfGlobalScope (s := s) program p level c = .ok (false, c)) ∧
    (stopAt s p = true → ∃ c', handleDtsMayChangeOfGlobalScope (s := s) program p level c = .ok (true, c') ∧
      Mirrors program s h₀ done list a earlier level (st.record (.stop level)) c') := by
  obtain ⟨here, split, low, handling⟩ := m.split
  obtain ⟨no, yes⟩ := handleDtsMayChangeOfGlobalScope_spec consistent handling member p
    fun below => not_handledBy_high (low below)
  refine ⟨fun go => no (of_decide_eq_false go), fun halt => ?_⟩
  obtain ⟨c', run, handling'⟩ := yes (of_decide_eq_true halt)
  refine ⟨c', run, here ++ [.stop level], ?_, ?_, ?_⟩
  · simp [State.record, split]
  · intro below e he
    rcases mem_append.mp he with old | new
    · exact low below e old
    · rw [mem_singleton.mp new]
      exact below
  · simp only [State.record, handledBy_stop, halts_stop]
    exact handling'

theorem Mirrors.mark (p : Path) : Mirrors program s h₀ done list a earlier level (st.mark level p)
      (c.1, { c.2 with seenFileAndReferences := c.2.seenFileAndReferences.insert p level }) := by
  obtain ⟨here, split, low, handling⟩ := m.split
  refine ⟨here, split, low, ?_, handling.changes, ?_, handling.list⟩
  · exact { handling.effects with }
  · show Finmap.insert p level c.2.seenFileAndReferences = Finmap.insert p level st.seen
    rw [handling.seen]

theorem Mirrors.seen : c.2.seenFileAndReferences = st.seen := by
  obtain ⟨here, -, -, handling⟩ := m.split
  exact handling.seen
end

theorem search_mirrors (consistent : Consistent program s) (order : Enumeration s) (member : a ∈ s.changedFilesSet)
    (fuel : Nat) : ∀ p ∈ program.getSourceFiles, ∀ st c stopped st', Mirrors program s h₀ done list a earlier level st c →
      search order.referencedBy (stopAt s) level fuel p st = some (stopped, st') →
      ∃ c', handleDtsMayChangeOfFileAndReferences program order level fuel p c = .ok (stopped, c') ∧
        Mirrors program s h₀ done list a earlier level st' c' := by
  induction fuel with
  | zero =>
    intro p _ st c stopped st' _ run
    cases run
  | succ fuel ih =>
    intro p file st c stopped st' m run
    unfold search at run
    unfold handleDtsMayChangeOfFileAndReferences
    have covers : st.Covers level p ↔ c.2.seenFileAndReferences.lookup p = some true ∨
        (c.2.seenFileAndReferences.lookup p = some false ∧ level = false) := by
      rw [m.seen]
      rfl
    by_cases seen : st.Covers level p
    · rw [if_pos seen] at run
      cases run
      exact ⟨c, if_pos (covers.mp seen), m⟩
    rw [if_neg seen] at run
    simp only [if_neg (covers.not.mp seen)]
    have marked := m.mark p
    obtain ⟨no, yes⟩ := marked.global consistent member p
    cases halt : stopAt s p with
    | true =>
      rw [halt, if_pos rfl] at run
      cases run
      obtain ⟨c', global, m'⟩ := yes halt
      exact ⟨c', by simp [global, monad_bind, monad_pure], m'⟩
    | false =>
      rw [halt] at run
      obtain ⟨c₁, handled, m₁⟩ := marked.visit consistent member file
      obtain ⟨c', rest, m'⟩ := untilTrue_simulates (order.referencedBy p)
        (fun q hq st c b st' m run => ih q (consistent.file_of_referencedBy ((order.mem_referencedBy p q).mp hq))
          st c b st' m run) _ _ _ _ m₁ run
      refine ⟨c', ?_, m'⟩
      simp only [no halt, handled, monad_bind, bind_ok]
      exact rest

theorem mem_filesReferencedBy (order : Enumeration s) (a q : Path) :
    q ∈ filesReferencedBy order a ↔ q ∈ s.referencedBy a ∧ q ≠ a := by
  have loop : ∀ (queue : List Path) (seen : Finset Path) (out : List Path), (∀ x, x ∈ seen ↔ x = a ∨ x ∈ out) →
      (q ∈ (queue.foldl (fun (state : Finset Path × List Path) p =>
        if p ∈ state.1 then state else (insert p state.1, state.2 ++ [p])) (seen, out)).2 ↔
      q ∈ out ∨ (q ∈ queue ∧ q ≠ a)) := by
    intro queue
    induction queue with
    | nil =>
      simp
    | cons p queue ih =>
      intro seen out same
      rw [foldl_cons]
      by_cases member : p ∈ seen
      · rw [if_pos member, ih seen out same]
        rcases (same p).mp member with rfl | listed
        · simp only [mem_cons]
          tauto
        simp only [mem_cons]
        constructor
        · tauto
        · rintro (old | ⟨rfl | later, apart⟩)
          · exact .inl old
          · exact .inl listed
          · exact .inr ⟨later, apart⟩
      have same' : ∀ x, x ∈ insert p seen ↔ x = a ∨ x ∈ out ++ [p] := by
        simp only [Finset.mem_insert, same, mem_append, mem_singleton]
        tauto
      rw [if_neg member, ih _ _ same']
      have other : p ≠ a := fun here => member ((same p).mpr (.inl here))
      simp only [mem_append, mem_cons, not_mem_nil, or_false]
      constructor
      · rintro ((old | rfl) | later)
        · exact .inl old
        · exact .inr ⟨.inl rfl, other⟩
        · exact .inr ⟨.inr later.1, later.2⟩
      · tauto
  rw [filesReferencedBy, loop _ _ _ (by simp)]
  simp [order.mem_referencedBy]

theorem referencing_mirrors (consistent : Consistent program s) (order : Enumeration s) (member : a ∈ s.changedFilesSet)
    (same : level = program.exportsConstEnum a) (m : Mirrors program s h₀ done list a earlier level st c)
    (run : sweep order.referencedBy (stopAt s) level (s.referencedMap.keys.card + 1) (order.referencedBy a) st =
      some (stopped, st')) : ∃ c', handleReferencingFiles program order a c = .ok (stopped, c') ∧
      Mirrors program s h₀ done list a earlier level st' c' := by
  unfold handleReferencingFiles
  rw [← same]
  refine untilTrue_simulates (order.referencedBy a) (fun q hq st c b st' m run => ?_) st c stopped st' m run
  obtain ⟨no, yes⟩ := m.global consistent member q
  unfold sweepFrom at run
  cases halt : stopAt s q with
  | true =>
    rw [halt, if_pos rfl] at run
    cases run
    obtain ⟨c', global, m'⟩ := yes halt
    exact ⟨c', by simp [global, monad_bind, monad_pure], m'⟩
  | false =>
    rw [halt] at run
    obtain ⟨c', rest, m'⟩ := untilTrue_simulates (order.referencedBy q)
      (fun r hr st c b st' m run => search_mirrors consistent order member _ r
        (consistent.file_of_referencedBy ((order.mem_referencedBy q r).mp hr)) st c b st' m run) _ _ _ _ m run
    refine ⟨c', ?_, m'⟩
    simp only [no halt, monad_bind, bind_ok]
    exact rest

theorem isolated_mirrors (consistent : Consistent program s) (order : Enumeration s) (member : a ∈ s.changedFilesSet)
    (updated : ∀ f ∈ program.getSourceFiles, f ∈ s.changedFilesSet → f ∈ h₀.updatedSignatures) (m : Mirrors program s h₀ done list a earlier false st c)
    (run : untilTrue (touch (stopAt s)) (filesReferencedBy order a) st = some (stopped, st')) :
    ∃ c', handleIsolatedReferences program order a c = .ok (stopped, c') ∧
      Mirrors program s h₀ done list a earlier false st' c' := by
  refine untilTrue_simulates (filesReferencedBy order a) (fun q hq st c b st' m run => ?_) st c stopped st' m run
  obtain ⟨no, yes⟩ := m.global consistent member q
  have file : q ∈ program.getSourceFiles :=
    consistent.file_of_referencedBy ((mem_filesReferencedBy order a q).mp hq).1
  unfold touch at run
  cases halt : stopAt s q with
  | true =>
    rw [halt, if_pos rfl] at run
    cases run
    obtain ⟨c', global, m'⟩ := yes halt
    exact ⟨c', by simp [global, monad_bind, monad_pure], m'⟩
  | false =>
    rw [halt] at run
    cases run
    obtain ⟨c', handled, m'⟩ := m.visit consistent member file
    -- The signature of the file is known by now: it was recomputed, or it is the version.
    have known : q ∈ c'.2.updatedSignatures := by
      obtain ⟨here, -, -, handling⟩ := m'.split
      by_cases old : q ∈ h₀.updatedSignatures
      · obtain ⟨signature, lookup⟩ := Finmap.mem_iff.mp old
        exact Finmap.mem_iff.mpr ⟨signature, (handling.effects.kept q old).trans lookup⟩
      have unchanged : q ∉ s.changedFilesSet := fun changed => old (updated q file changed)
      obtain ⟨info, entry⟩ := Finmap.mem_iff.mp (consistent.infos q file)
      refine Finmap.mem_iff.mpr ⟨info.version, ?_⟩
      rw [handling.effects.added q old ⟨false, unchanged, .inl (by simp [State.record])⟩, entry]
      rfl
    have signature : ∃ changed, c'.2.isChangedSignature q = .ok changed := by
      obtain ⟨here, -, -, handling⟩ := m'.split
      obtain ⟨info, entry⟩ := Finmap.mem_iff.mp (consistent.infos q file)
      obtain ⟨new, lookup⟩ := Finmap.mem_iff.mp known
      refine ⟨new != info.signature, ?_⟩
      unfold AffectedFilesHandler.isChangedSignature
      rw [lookup, handling.effects.snapshot.fileInfos, entry]
    obtain ⟨changed, signature⟩ := signature
    exact ⟨c', by simp [no halt, handled, signature, monad_bind, monad_pure], m'⟩
end

section
variable (program : CompilerProgram) (s : Snapshot)

/-- A changed file whose signature changed: the searches start there. -/
def Source (a : Path) : Prop :=
  a ∈ program.getSourceFiles ∧ a ∈ s.changedFilesSet ∧ SignatureChanged program s a

def Direct (a q : Path) : Prop := s.options.isolatedModules = true ∧ q ∈ s.referencedBy a ∧ q ≠ a

/-- One of these files affects the global scope, so nothing else is looked at. -/
def Cut (a : Path) : Prop := ∃ q, Direct s a q ∧ AffectsGlobalScope s q

/-- The files that refer, over any number of steps, to the files that refer to a file. -/
def Beyond (a p : Path) : Prop :=
  ∃ q ∈ s.referencedBy a, ∃ r ∈ s.referencedBy q, Relation.ReflTransGen (fun x y => y ∈ s.referencedBy x) r p

def MayVisit (a : Path) (level : Bool) (x : Path) : Prop :=
  (level = false ∧ Direct s a x) ∨ (¬ Cut s a ∧ level = program.exportsConstEnum a ∧ Beyond s a x)

/-- The levels at which the searches from a file stop, if they get there. -/
def MayStop (a : Path) (level : Bool) : Prop :=
  (level = false ∧ Cut s a) ∨ (¬ Cut s a ∧ level = program.exportsConstEnum a ∧
    ∃ p, AffectsGlobalScope s p ∧ (p ∈ s.referencedBy a ∨ Beyond s a p))

variable {program s}

structure Round (program : CompilerProgram) {s : Snapshot} (order : Enumeration s) (a : Path) (st st' : State Path) :
    Prop where
  grows : Grows st st'
  settled : ∀ level opened, Settled order.referencedBy st level opened → Settled order.referencedBy st' level opened
  visits : ∀ x level, .visit x level ∈ st'.log → .visit x level ∈ st.log ∨
    (¬ AffectsGlobalScope s x ∧ MayVisit program s a level x)
  stops : ∀ level, .stop level ∈ st'.log → .stop level ∈ st.log ∨ MayStop program s a level
  direct : ∀ q, Direct s a q → st'.Visited false q ∨ st'.Stopped false
  cut : Cut s a → st'.Stopped false
  main : ¬ Cut s a → st'.Stopped (program.exportsConstEnum a) ∨
    ((∀ q ∈ s.referencedBy a, ¬ AffectsGlobalScope s q) ∧
      ∀ q ∈ s.referencedBy a, ∀ r ∈ s.referencedBy q, st'.Covers (program.exportsConstEnum a) r)

theorem reaches_beyond (order : Enumeration s) {a n : Path}
    (reached : Reaches order.referencedBy (fun r => ∃ q ∈ order.referencedBy a, r ∈ order.referencedBy q) n) :
    Beyond s a n := by
  obtain ⟨r, ⟨q, hq, hr⟩, path⟩ := reached
  refine ⟨q, (order.mem_referencedBy a q).mp hq, r, (order.mem_referencedBy q r).mp hr, ?_⟩
  exact Relation.ReflTransGen.mono (fun x y edge => (order.mem_referencedBy x y).mp edge) _ _ path

theorem Searched.round (order : Enumeration s) {a : Path} {st st₁ st' : State Path} {stopped : Bool}
    (uncut : ¬ Cut s a) (first : Grows st st₁)
    (settled : ∀ level opened, Settled order.referencedBy st level opened →
      Settled order.referencedBy st₁ level opened)
    (visits : ∀ e ∈ st₁.log, e ∈ st.log ∨ ∃ x, e = .visit x false ∧ ¬ AffectsGlobalScope s x ∧ Direct s a x)
    (direct : ∀ q, Direct s a q → st₁.Visited false q)
    (searched : Searched order.referencedBy (stopAt s) (program.exportsConstEnum a) (· ∈ order.referencedBy a)
      (fun r => ∃ q ∈ order.referencedBy a, r ∈ order.referencedBy q) st₁ stopped st') :
    Round program order a st st' where
  grows := first.trans searched.grows
  settled level opened before := searched.settled level opened (settled level opened before)
  visits x level member := by
    rcases searched.events _ member with old | ⟨n, same, go, reached⟩ | ⟨same, -⟩
    · rcases visits _ old with earlier | ⟨y, same, scope, here⟩
      · exact .inl earlier
      · cases same
        exact .inr ⟨scope, .inl ⟨rfl, here⟩⟩
    · cases same
      exact .inr ⟨of_decide_eq_false go, .inr ⟨uncut, rfl, reaches_beyond order reached⟩⟩
    · cases same
  stops level member := by
    rcases searched.events _ member with old | ⟨n, same, -⟩ | ⟨same, n, halt, reached⟩
    · rcases visits _ old with earlier | ⟨y, same, -⟩
      · exact .inl earlier
      · cases same
    · cases same
    · cases same
      refine .inr (.inr ⟨uncut, rfl, n, of_decide_eq_true halt, ?_⟩)
      exact reached.imp (order.mem_referencedBy a n).mp (reaches_beyond order)
  direct q here := .inl (searched.grows.visited (direct q here))
  cut now := absurd now uncut
  main _ := by
    cases stopped with
    | true => exact .inl (searched.given rfl)
    | false =>
      obtain ⟨entries, roots⟩ := searched.covered rfl
      refine .inr ⟨fun q hq => of_decide_eq_false (entries q ((order.mem_referencedBy a q).mpr hq)), ?_⟩
      intro q hq r hr
      exact roots r ⟨q, (order.mem_referencedBy a q).mpr hq, (order.mem_referencedBy q r).mpr hr⟩

theorem Touched.cutRound (order : Enumeration s) {a : Path} {st st' : State Path}
    (touched : Touched (stopAt s) (Direct s a) st true st') : Round program order a st st' := by
  obtain ⟨halted, q, here, scope⟩ := touched.given rfl
  have cut : Cut s a := ⟨q, here, of_decide_eq_true scope⟩
  refine ⟨touched.grows, fun level opened before => ?_, fun x level member => ?_, fun level member => ?_,
    fun q _ => .inr halted, fun _ => halted, fun uncut => absurd cut uncut⟩
  · exact touched.settled level opened before
  · rcases touched.events _ member with old | ⟨n, same, go, listed⟩ | ⟨same, -⟩
    · exact .inl old
    · cases same
      exact .inr ⟨of_decide_eq_false go, .inl ⟨rfl, listed⟩⟩
    · cases same
  rcases touched.events _ member with old | ⟨n, same, -⟩ | ⟨same, -⟩
  · exact .inl old
  · cases same
  · cases same
    exact .inr (.inl ⟨rfl, cut⟩)
end

theorem Mirrors.raise {program : CompilerProgram} {s : Snapshot} {h₀ : AffectedFilesHandler} {done : Path → Prop}
    {list : List DtsMayChange} {a : Path} {earlier : List (Event Path)} {st : State Path}
    {c : DtsMayChange × AffectedFilesHandler} (m : Mirrors program s h₀ done list a earlier false st c) (level : Bool) :
    Mirrors program s h₀ done list a earlier level st c := by
  obtain ⟨here, split, low, handling⟩ := m.split
  exact ⟨here, split, fun _ => low rfl, handling⟩

section
variable {program : CompilerProgram} {s : Snapshot} {h₀ : AffectedFilesHandler} {done : Path → Prop}
  {list : List DtsMayChange} {a : Path} {earlier : List (Event Path)} {st : State Path}
  {c : DtsMayChange × AffectedFilesHandler}

theorem direct_iff (order : Enumeration s) (isolated : s.options.isolatedModules = true) (q : Path) :
    q ∈ filesReferencedBy order a ↔ Direct s a q := by
  rw [mem_filesReferencedBy]
  exact ⟨fun here => ⟨isolated, here⟩, fun here => here.2⟩

theorem handleReferencingFiles_round (consistent : Consistent program s) (order : Enumeration s)
    (member : a ∈ s.changedFilesSet) {st₁ : State Path} (m : Mirrors program s h₀ done list a earlier false st₁ c)
    (uncut : ¬ Cut s a) (first : Grows st st₁)
    (settled : ∀ level opened, Settled order.referencedBy st level opened →
      Settled order.referencedBy st₁ level opened)
    (visits : ∀ e ∈ st₁.log, e ∈ st.log ∨ ∃ x, e = .visit x false ∧ ¬ AffectsGlobalScope s x ∧ Direct s a x)
    (direct : ∀ q, Direct s a q → st₁.Visited false q) :
    ∃ stopped c' st', handleReferencingFiles program order a c = .ok (stopped, c') ∧
      Mirrors program s h₀ done list a earlier (program.exportsConstEnum a) st' c' ∧ Round program order a st st' := by
  have closed : ∀ n, ∀ q ∈ order.referencedBy n, q ∈ s.referencedMap.keys := fun n q edge =>
    (Finset.mem_filter.mp ((order.mem_referencedBy n q).mp edge)).1
  obtain ⟨stopped, st', run, searched⟩ := sweep_spec (stopAt s) closed (program.exportsConstEnum a)
    (Nat.lt_succ_self _) (order.referencedBy a) st₁
  obtain ⟨c', ran, m'⟩ := referencing_mirrors consistent order member rfl (m.raise _) run
  exact ⟨stopped, c', st', ran, m', Searched.round order uncut first settled visits direct searched⟩

theorem handleReferences_round (consistent : Consistent program s) (order : Enumeration s) (member : a ∈ s.changedFilesSet)
    (updated : ∀ f ∈ program.getSourceFiles, f ∈ s.changedFilesSet → f ∈ h₀.updatedSignatures)
    (m : Mirrors program s h₀ done list a earlier false st c) :
    ∃ c' st' level, (do
        let (stopped, c) ←
          if s.options.isolatedModules then handleIsolatedReferences program order a c else pure (false, c)
        if stopped then pure c
        else
          let (_, c) ← handleReferencingFiles program order a c
          pure c : Outcome (DtsMayChange × AffectedFilesHandler)) = .ok c' ∧
      Mirrors program s h₀ done list a earlier level st' c' ∧ Round program order a st st' := by
  cases isolated : s.options.isolatedModules with
  | false =>
    have none : ∀ q, ¬ Direct s a q := fun q here => by cases isolated.symm.trans here.1
    obtain ⟨stopped, c', st', run, m', round⟩ := handleReferencingFiles_round consistent order member m
      (fun ⟨q, here, _⟩ => none q here) (.refl st) (fun _ _ before => before) (fun e old => .inl old)
      (fun q here => absurd here (none q))
    refine ⟨c', st', _, ?_, m', round⟩
    simp [run, monad_bind, monad_pure]
  | true =>
    obtain ⟨stopped, st₁, run, touched⟩ := touchEach_spec (stopAt s) (filesReferencedBy order a) st
    obtain ⟨c₁, ran, m₁⟩ := isolated_mirrors consistent order member updated m run
    have nodes : (· ∈ filesReferencedBy order a) = Direct s a := funext fun q => propext (direct_iff order isolated q)
    rw [nodes] at touched
    cases stopped with
    | true =>
      refine ⟨c₁, st₁, false, ?_, m₁, Touched.cutRound order touched⟩
      simp [ran, monad_bind, monad_pure]
    | false =>
      have uncut : ¬ Cut s a := by
        rintro ⟨q, here, scope⟩
        exact of_decide_eq_false (touched.visited rfl q here).1 scope
      have visits : ∀ e ∈ st₁.log, e ∈ st.log ∨
          ∃ x, e = .visit x false ∧ ¬ AffectsGlobalScope s x ∧ Direct s a x := by
        intro e logged
        rcases touched.events e logged with old | ⟨x, same, go, here⟩ | ⟨-, q, halt, here⟩
        · exact .inl old
        · exact .inr ⟨x, same, of_decide_eq_false go, here⟩
        · exact absurd ⟨q, here, of_decide_eq_true halt⟩ uncut
      obtain ⟨stopped, c', st', again, m', round⟩ := handleReferencingFiles_round consistent order member m₁ uncut
        touched.grows touched.settled visits (fun q here => (touched.visited rfl q here).2)
      refine ⟨c', st', _, ?_, m', round⟩
      simp [ran, again, monad_bind, monad_pure]
end

variable {program : CompilerProgram} {s : Snapshot} {h₀ : AffectedFilesHandler}
variable {done : List Path} {T : Handled} {halted : Prop} {h : AffectedFilesHandler} {a : Path}

structure Working (program : CompilerProgram) (s : Snapshot) (h₀ : AffectedFilesHandler) (done : List Path)
    (T : Handled) (halted : Prop) (h : AffectedFilesHandler) : Prop where
  effects : Effects program s h₀ (· ∈ done) T halted h
  summary : Summary s (· ∈ done) T h.dtsMayChange

theorem handledBy_append (log here : List (Event Path)) :
    handledBy program s (log ++ here) = fun level x => handledBy program s log level x ∨
      handledBy program s here level x := by
  funext level x
  simp only [handledBy, mem_append, eq_iff_iff]
  tauto

theorem handledBy_nil : handledBy program s [] = fun _ _ => False := by
  funext level x
  simp [handledBy]

theorem Changes.start (a : Path) : Changes s a (fun _ _ => False) (Finmap.singleton a (getFileEmitKind s.options)) where
  own := Finmap.lookup_singleton_eq
  high x h := h.elim
  low x h := h.elim
  none x _ other := Finmap.lookup_eq_none.mpr (by simpa using other)

theorem Effects.remove (effects : Effects program s h₀ (· ∈ done) T halted h) (a : Path) :
    Effects program s h₀ (· ∈ done ++ [a]) T halted (h.removeSemanticDiagnosticsOf a) :=
  { effects with
    removed := fun x => by
      show x ∈ insert a h.filesToRemoveDiagnostics ↔ _
      rw [Finset.mem_insert, effects.removed]
      simp only [mem_append, mem_singleton]
      tauto }

theorem Working.finish {T' here : Handled} {halted' : Prop} {h' : AffectedFilesHandler} {change : DtsMayChange} (before : Working program s h₀ done T halted h)
    (effects : Effects program s h₀ (· ∈ done ++ [a]) T' halted' h') (changes : Changes s a here change)
    (same : h'.dtsMayChange = h.dtsMayChange) (union : T' = fun level x => T level x ∨ here level x) :
    Working program s h₀ (done ++ [a]) T' halted' { h' with dtsMayChange := h'.dtsMayChange ++ [change] } where
  effects := { effects with }
  summary := by
    rw [same, union]
    have pushed := before.summary.push changes
    simpa only [mem_append, mem_singleton] using pushed

theorem Effects.isChangedSignature {done : Path → Prop}
    (effects : Effects program s h₀ done T halted h) (known : Recomputed program s h₀)
    (updated : a ∈ h₀.updatedSignatures) :
    ∃ changed, h.isChangedSignature a = .ok changed ∧ (changed = true ↔ SignatureChanged program s a) := by
  obtain ⟨signature, lookup⟩ := Finmap.mem_iff.mp updated
  obtain ⟨info, entry, value⟩ := known.values a signature lookup
  refine ⟨signature != info.signature, ?_, ?_⟩
  · unfold AffectedFilesHandler.isChangedSignature
    rw [effects.kept a updated, lookup, effects.snapshot.fileInfos, entry]
  · simp [SignatureChanged, entry, value]

theorem handleAffectedFile_spec (consistent : Consistent program s) (order : Enumeration s) (known : Recomputed program s h₀)
    (changedFiles : ∀ f ∈ program.getSourceFiles, f ∈ s.changedFilesSet → f ∈ h₀.updatedSignatures)
    (unnoticed : h₀.hasAllFilesExcludingDefaultLibraryFile = false)
    (everywhere : s.options.assumeChangesOnlyAffectDirectDependencies = false) {st : State Path}
    (before : Working program s h₀ done (handledBy program s st.log) (Halts st.log) h)
    (seen : h.seenFileAndReferences = st.seen) (updated : a ∈ h₀.updatedSignatures) :
    ∃ h' st', handleAffectedFile program order h a = .ok h' ∧
      Working program s h₀ (done ++ [a]) (handledBy program s st'.log) (Halts st'.log) h' ∧
      h'.seenFileAndReferences = st'.seen ∧
      (Source program s a → Round program order a st st') ∧ (¬ Source program s a → st' = st) := by
  have file : a ∈ program.getSourceFiles := known.files a updated
  have effects := before.effects.remove a
  have flag : (h.removeSemanticDiagnosticsOf a).hasAllFilesExcludingDefaultLibraryFile = false :=
    effects.flag.trans unnoticed
  obtain ⟨changed, answer, changes⟩ := effects.isChangedSignature known updated
  have start : Mirrors program s h₀ (· ∈ done ++ [a]) h.dtsMayChange a st.log false st
      (Finmap.singleton a (getFileEmitKind s.options), h.removeSemanticDiagnosticsOf a) := by
    refine ⟨[], by simp, by simp, effects, ?_, seen, rfl⟩
    rw [handledBy_nil]
    exact Changes.start a
  -- A file from which no search starts is done.
  have idle : Working program s h₀ (done ++ [a]) (handledBy program s st.log) (Halts st.log)
      { h.removeSemanticDiagnosticsOf a with
        dtsMayChange := h.dtsMayChange ++ [Finmap.singleton a (getFileEmitKind s.options)] } :=
    before.finish effects (Changes.start a) rfl (by simp)
  unfold handleAffectedFile handleDtsMayChangeOfAffectedFile
  simp only [flag, everywhere, Bool.false_eq_true, if_false]
  by_cases member : a ∈ s.changedFilesSet
  · simp only [member, not_true_eq_false, if_false, answer, monad_bind, bind_ok]
    cases changed with
    | false =>
      have unchanged : ¬ Source program s a := fun source => by cases changes.mpr source.2.2
      exact ⟨_, st, rfl, idle, seen, fun source => absurd source unchanged, fun _ => rfl⟩
    | true =>
      have source : Source program s a := ⟨file, member, changes.mp rfl⟩
      obtain ⟨c', st', level, run, m, round⟩ := handleReferences_round consistent order member changedFiles start
      obtain ⟨here, split, -, handling⟩ := m.split
      refine ⟨{ c'.2 with dtsMayChange := c'.2.dtsMayChange ++ [c'.1] }, st', ?_, ?_, handling.seen,
        fun _ => round, fun other => absurd source other⟩
      · simp only [monad_bind] at run
        simp only [Bool.not_true, Bool.false_eq_true, if_false, run]
        rfl
      · refine before.finish handling.effects handling.changes handling.list ?_
        rw [split, handledBy_append]
  · have unchanged : ¬ Source program s a := fun source => member source.2.1
    refine ⟨_, st, ?_, idle, seen, fun source => absurd source unchanged, fun _ => rfl⟩
    simp only [member, not_false_eq_true, if_true, monad_pure, monad_bind, bind_ok]
    rfl

end TypeScriptRs.Incremental
