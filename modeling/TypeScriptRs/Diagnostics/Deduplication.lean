import TypeScriptRs.Diagnostics.Diagnostic

/-! What sorting and removing duplicates keeps of a list of diagnostics. -/
namespace TypeScriptRs.Diagnostics
open Comparison List

-- what equality looks at, with the rest left out
mutual
def chainCore : Diagnostic → Diagnostic
  | .mk _ _ _ code args chain _ _ _ => .mk none 0 0 code args (chainCores chain) [] none none

def chainCores : List Diagnostic → List Diagnostic
  | [] => []
  | c :: cs => chainCore c :: chainCores cs
end

def headCore (d : Diagnostic) : Diagnostic :=
  .mk (some d.path) d.pos d.end_ d.code d.messageArgs (chainCores d.messageChain) [] none none

mutual
def core : Diagnostic → Diagnostic
  | .mk file pos end_ code args chain related _ _ =>
    .mk (some (file.getD "")) pos end_ code args (chainCores chain) (cores related) none none

def cores : List Diagnostic → List Diagnostic
  | [] => []
  | r :: rs => core r :: cores rs
end

mutual
theorem equalMessageChain_iff (c c' : Diagnostic) : equalMessageChain c c' = true ↔ chainCore c = chainCore c' := by
  obtain ⟨file, pos, end_, code, args, chain, related, canonicalCode, canonicalArgs⟩ := c
  obtain ⟨file', pos', end_', code', args', chain', related', canonicalCode', canonicalArgs'⟩ := c'
  have below := equalMessageChains_iff chain chain'
  simp only [equalMessageChain, chainCore, Bool.and_eq_true, decide_eq_true_eq, below, Diagnostic.mk.injEq, true_and, and_true,
    and_assoc]

theorem equalMessageChains_iff (cs cs' : List Diagnostic) : equalMessageChains cs cs' = true ↔ chainCores cs = chainCores cs' := by
  cases cs with
  | nil => cases cs' <;> simp [equalMessageChains, chainCores]
  | cons c cs =>
    cases cs' with
    | nil => simp [equalMessageChains, chainCores]
    | cons c' cs' =>
      rw [equalMessageChains, Bool.and_eq_true, equalMessageChain_iff c c', equalMessageChains_iff cs cs', chainCores, chainCores,
        List.cons.injEq]
end

theorem equalDiagnosticsNoRelatedInfo_iff (d d' : Diagnostic) :
    equalDiagnosticsNoRelatedInfo d d' = true ↔ headCore d = headCore d' := by
  simp only [equalDiagnosticsNoRelatedInfo, headCore, Bool.and_eq_true, decide_eq_true_eq, equalMessageChains_iff,
    Diagnostic.mk.injEq, Option.some.injEq, and_true, and_assoc]

mutual
theorem equalDiagnostics_iff (d d' : Diagnostic) : equalDiagnostics d d' = true ↔ core d = core d' := by
  obtain ⟨file, pos, end_, code, args, chain, related, canonicalCode, canonicalArgs⟩ := d
  obtain ⟨file', pos', end_', code', args', chain', related', canonicalCode', canonicalArgs'⟩ := d'
  rw [equalDiagnostics, Bool.and_eq_true, equalDiagnosticsNoRelatedInfo_iff, Diagnostic.relatedInformation,
    equalRelatedInfo_iff related related']
  simp only [headCore, core, Diagnostic.mk.injEq, Diagnostic.path, Diagnostic.pos, Diagnostic.end_, Diagnostic.code,
    Diagnostic.messageArgs, Diagnostic.messageChain, and_assoc, and_true]

theorem equalRelatedInfo_iff (rs rs' : List Diagnostic) : equalRelatedInfo rs rs' = true ↔ cores rs = cores rs' := by
  cases rs with
  | nil => cases rs' <;> simp [equalRelatedInfo, cores]
  | cons r rs =>
    cases rs' with
    | nil => simp [equalRelatedInfo, cores]
    | cons r' rs' =>
      rw [equalRelatedInfo, Bool.and_eq_true, equalDiagnostics_iff r r', equalRelatedInfo_iff rs rs', cores, cores, List.cons.injEq]
end

theorem compareStringSlices_swap (as bs : List String) : compareStringSlices bs as = (compareStringSlices as bs).swap := by
  induction as generalizing bs with
  | nil => cases bs <;> exact compare_swap _ _
  | cons a as ih =>
    cases bs with
    | nil => exact compare_swap _ _
    | cons b bs => rw [compareStringSlices, compareStringSlices, Ordering.swap_then, compare_swap a b, ih bs]

theorem compareStringSlices_composes (as bs cs : List String) :
    Composes (compareStringSlices as bs) (compareStringSlices bs cs) (compareStringSlices as cs) := by
  induction as generalizing bs cs with
  | nil =>
    cases bs with
    | nil => exact composes_compare _ _ _
    | cons b bs =>
      cases cs with
      | nil => exact composes_compare _ _ _
      | cons c cs =>
        have shorter : compareStringSlices [] (c :: cs) = .lt := compare_lt_iff_lt.mpr (Nat.succ_pos _)
        have shorter' : compareStringSlices [] (b :: bs) = .lt := compare_lt_iff_lt.mpr (Nat.succ_pos _)
        rw [shorter, shorter']
        cases compareStringSlices (b :: bs) (c :: cs) <;> trivial
  | cons a as ih =>
    cases cs with
    | nil =>
      cases bs with
      | nil => exact composes_compare _ _ _
      | cons b bs =>
        have longer : compareStringSlices (a :: as) [] = .gt := compare_gt_iff_gt.mpr (Nat.succ_pos _)
        have longer' : compareStringSlices (b :: bs) [] = .gt := compare_gt_iff_gt.mpr (Nat.succ_pos _)
        rw [longer, longer']
        cases compareStringSlices (a :: as) (b :: bs) <;> trivial
    | cons c cs =>
      cases bs with
      | nil =>
        have longer : compareStringSlices (a :: as) [] = .gt := compare_gt_iff_gt.mpr (Nat.succ_pos _)
        have shorter : compareStringSlices [] (c :: cs) = .lt := compare_lt_iff_lt.mpr (Nat.succ_pos _)
        rw [longer, shorter]
        trivial
      | cons b bs => exact (composes_compare a b c).then fun _ _ => ih bs cs

mutual
theorem compareChainsBelow_swap (c c' : Diagnostic) : compareChainsBelow c' c = (compareChainsBelow c c').swap := by
  obtain ⟨file, pos, end_, code, args, chain, related, canonicalCode, canonicalArgs⟩ := c
  obtain ⟨file', pos', end_', code', args', chain', related', canonicalCode', canonicalArgs'⟩ := c'
  rw [compareChainsBelow, compareChainsBelow, Ordering.swap_then, compareElementSizes_swap chain chain',
    compare_swap chain'.length chain.length]

theorem compareElementSizes_swap (cs cs' : List Diagnostic) : compareElementSizes cs' cs = (compareElementSizes cs cs').swap := by
  cases cs with
  | nil => cases cs' <;> rfl
  | cons c cs =>
    cases cs' with
    | nil => rfl
    | cons c' cs' =>
      rw [compareElementSizes, compareElementSizes, Ordering.swap_then, compareChainsBelow_swap c c', compareElementSizes_swap cs cs']
end

mutual
theorem compareMessageChainContent_swap (cs cs' : List Diagnostic) :
    compareMessageChainContent cs' cs = (compareMessageChainContent cs cs').swap := by
  cases cs with
  | nil => cases cs' <;> rfl
  | cons c cs =>
    cases cs' with
    | nil => rfl
    | cons c' cs' =>
      rw [compareMessageChainContent, compareMessageChainContent, Ordering.swap_then, compareElementContent_swap c c',
        compareMessageChainContent_swap cs cs']

theorem compareElementContent_swap (c c' : Diagnostic) : compareElementContent c' c = (compareElementContent c c').swap := by
  obtain ⟨file, pos, end_, code, args, chain, related, canonicalCode, canonicalArgs⟩ := c
  obtain ⟨file', pos', end_', code', args', chain', related', canonicalCode', canonicalArgs'⟩ := c'
  rw [compareElementContent, compareElementContent, Ordering.swap_then, compareMessageChainContent_swap chain chain',
    compareStringSlices_swap args args']
end

theorem compareHeads_swap (d d' : Diagnostic) : compareHeads d' d = (compareHeads d d').swap := by
  simp only [compareHeads, compareMessageChainSize, Ordering.swap_then, compare_swap d.path, compare_swap d.pos,
    compare_swap d.end_, compare_swap d.canonicalCode, compareStringSlices_swap d.canonicalMessageArgs,
    compareElementSizes_swap d.messageChain, compareMessageChainContent_swap d.messageChain,
    compare_swap d'.messageChain.length]

mutual
theorem compareDiagnostics_swap (d d' : Diagnostic) : compareDiagnostics d' d = (compareDiagnostics d d').swap := by
  obtain ⟨file, pos, end_, code, args, chain, related, canonicalCode, canonicalArgs⟩ := d
  obtain ⟨file', pos', end_', code', args', chain', related', canonicalCode', canonicalArgs'⟩ := d'
  rw [compareDiagnostics, compareDiagnostics, Ordering.swap_then, Ordering.swap_then, Diagnostic.relatedInformation,
    Diagnostic.relatedInformation, compareRelatedInfo_swap related related', compare_swap related'.length related.length,
    compareHeads_swap (.mk file pos end_ code args chain related canonicalCode canonicalArgs)]

theorem compareRelatedInfo_swap (rs rs' : List Diagnostic) : compareRelatedInfo rs' rs = (compareRelatedInfo rs rs').swap := by
  cases rs with
  | nil => cases rs' <;> rfl
  | cons r rs =>
    cases rs' with
    | nil => rfl
    | cons r' rs' =>
      rw [compareRelatedInfo, compareRelatedInfo, Ordering.swap_then, compareDiagnostics_swap r r', compareRelatedInfo_swap rs rs']
end

mutual
theorem compareChainsBelow_composes (a b c : Diagnostic) :
    Composes (compareChainsBelow a b) (compareChainsBelow b c) (compareChainsBelow a c) := by
  obtain ⟨_, _, _, _, _, chain, _, _, _⟩ := a
  obtain ⟨_, _, _, _, _, chain', _, _, _⟩ := b
  obtain ⟨_, _, _, _, _, chain'', _, _, _⟩ := c
  rw [compareChainsBelow, compareChainsBelow, compareChainsBelow]
  exact (composes_compare_reverse _ _ _).then fun first second => compareElementSizes_composes chain chain' chain''
    (compare_eq_iff_eq.mp first).symm (compare_eq_iff_eq.mp second).symm

theorem compareElementSizes_composes (as bs cs : List Diagnostic) (first : as.length = bs.length) (second : bs.length = cs.length) :
    Composes (compareElementSizes as bs) (compareElementSizes bs cs) (compareElementSizes as cs) := by
  cases as with
  | nil =>
    obtain rfl := length_eq_zero_iff.mp first.symm
    obtain rfl := length_eq_zero_iff.mp second.symm
    rfl
  | cons a as =>
    cases bs with
    | nil => cases first
    | cons b bs =>
      cases cs with
      | nil => cases second
      | cons c cs =>
        exact (compareChainsBelow_composes a b c).then fun _ _ =>
          compareElementSizes_composes as bs cs (Nat.succ_injective first) (Nat.succ_injective second)
end

/-- Lists of chain elements have the same size at every depth. -/
def SameSize (cs cs' : List Diagnostic) : Prop := cs.length = cs'.length ∧ compareElementSizes cs cs' = .eq

theorem compareMessageChainSize_eq (cs cs' : List Diagnostic) : compareMessageChainSize cs cs' = .eq ↔ SameSize cs cs' := by
  rw [compareMessageChainSize, Ordering.then_eq_eq, compare_eq_iff_eq, SameSize, eq_comm]

theorem compareMessageChainSize_composes (as bs cs : List Diagnostic) :
    Composes (compareMessageChainSize as bs) (compareMessageChainSize bs cs) (compareMessageChainSize as cs) :=
  (composes_compare_reverse _ _ _).then fun first second =>
    compareElementSizes_composes as bs cs (compare_eq_iff_eq.mp first).symm (compare_eq_iff_eq.mp second).symm

theorem SameSize.cons {c c' : Diagnostic} {cs cs' : List Diagnostic} (same : SameSize (c :: cs) (c' :: cs')) :
    compareChainsBelow c c' = .eq ∧ SameSize cs cs' := by
  obtain ⟨length, sizes⟩ := same
  rw [compareElementSizes, Ordering.then_eq_eq] at sizes
  exact ⟨sizes.1, Nat.succ_injective length, sizes.2⟩

mutual
theorem compareMessageChainContent_composes (as bs cs : List Diagnostic) (first : SameSize as bs) (second : SameSize bs cs) :
    Composes (compareMessageChainContent as bs) (compareMessageChainContent bs cs) (compareMessageChainContent as cs) := by
  cases as with
  | nil =>
    obtain rfl := length_eq_zero_iff.mp first.1.symm
    obtain rfl := length_eq_zero_iff.mp second.1.symm
    rfl
  | cons a as =>
    cases bs with
    | nil => cases first.1
    | cons b bs =>
      cases cs with
      | nil => cases second.1
      | cons c cs =>
        obtain ⟨here, first⟩ := first.cons
        obtain ⟨here', second⟩ := second.cons
        exact (compareElementContent_composes a b c here here').then fun _ _ =>
          compareMessageChainContent_composes as bs cs first second

theorem compareElementContent_composes (a b c : Diagnostic) (first : compareChainsBelow a b = .eq)
    (second : compareChainsBelow b c = .eq) :
    Composes (compareElementContent a b) (compareElementContent b c) (compareElementContent a c) := by
  obtain ⟨_, _, _, _, args, chain, _, _, _⟩ := a
  obtain ⟨_, _, _, _, args', chain', _, _, _⟩ := b
  obtain ⟨_, _, _, _, args'', chain'', _, _, _⟩ := c
  rw [compareChainsBelow, ← compareMessageChainSize, compareMessageChainSize_eq] at first second
  rw [compareElementContent, compareElementContent, compareElementContent]
  exact (compareStringSlices_composes args args' args'').then fun _ _ =>
    compareMessageChainContent_composes chain chain' chain'' first second
end

theorem lawful_compareHeads : Lawful compareHeads where
  swap := compareHeads_swap
  composes := by
    intro a b c
    refine (composes_compare _ _ _).then fun _ _ => (composes_compare _ _ _).then fun _ _ =>
      (composes_compare _ _ _).then fun _ _ => (composes_compare _ _ _).then fun _ _ =>
        (compareStringSlices_composes _ _ _).then fun _ _ => (compareMessageChainSize_composes _ _ _).then fun first second => ?_
    exact compareMessageChainContent_composes _ _ _ ((compareMessageChainSize_eq _ _).mp first) ((compareMessageChainSize_eq _ _).mp second)

mutual
theorem compareDiagnostics_composes (a b c : Diagnostic) :
    Composes (compareDiagnostics a b) (compareDiagnostics b c) (compareDiagnostics a c) := by
  obtain ⟨file, pos, end_, code, args, chain, related, canonicalCode, canonicalArgs⟩ := a
  obtain ⟨file', pos', end_', code', args', chain', related', canonicalCode', canonicalArgs'⟩ := b
  obtain ⟨file'', pos'', end_'', code'', args'', chain'', related'', canonicalCode'', canonicalArgs''⟩ := c
  rw [compareDiagnostics, compareDiagnostics, compareDiagnostics]
  exact (lawful_compareHeads.composes _ _ _).then fun _ _ => (composes_compare_reverse _ _ _).then fun first second =>
    compareRelatedInfo_composes related related' related'' (compare_eq_iff_eq.mp first).symm (compare_eq_iff_eq.mp second).symm

theorem compareRelatedInfo_composes (as bs cs : List Diagnostic) (first : as.length = bs.length) (second : bs.length = cs.length) :
    Composes (compareRelatedInfo as bs) (compareRelatedInfo bs cs) (compareRelatedInfo as cs) := by
  cases as with
  | nil =>
    obtain rfl := length_eq_zero_iff.mp first.symm
    obtain rfl := length_eq_zero_iff.mp second.symm
    rfl
  | cons a as =>
    cases bs with
    | nil => cases first
    | cons b bs =>
      cases cs with
      | nil => cases second
      | cons c cs =>
        exact (compareDiagnostics_composes a b c).then fun _ _ =>
          compareRelatedInfo_composes as bs cs (Nat.succ_injective first) (Nat.succ_injective second)
end

theorem lawful_compareDiagnostics : Lawful compareDiagnostics := ⟨compareDiagnostics_swap, compareDiagnostics_composes⟩

theorem compareHeads_of_compareDiagnostics {d d' : Diagnostic} (below : le compareDiagnostics d d') : le compareHeads d d' := by
  obtain ⟨file, pos, end_, code, args, chain, related, canonicalCode, canonicalArgs⟩ := d
  unfold le at below ⊢
  rw [compareDiagnostics] at below
  intro above
  rw [above] at below
  exact below rfl

section
variable {a : Diagnostic} {l l' : List Diagnostic}

theorem dedupAfter_covers (last : Diagnostic) (l : List Diagnostic) :
    ∀ r ∈ l, ∃ r', (r' = last ∨ r' ∈ dedupAfter last l) ∧ core r' = core r := by
  induction l generalizing last with
  | nil =>
    intro r member
    cases member
  | cons d rest ih =>
    intro r member
    rw [dedupAfter]
    split
    · rename_i equal
      rcases mem_cons.mp member with rfl | later
      · exact ⟨last, .inl rfl, ((equalDiagnostics_iff _ _).mp equal).symm⟩
      · exact ih last r later
    · rcases mem_cons.mp member with rfl | later
      · exact ⟨r, .inr mem_cons_self, rfl⟩
      · obtain ⟨r', known, same⟩ := ih d r later
        exact ⟨r', .inr (mem_cons.mpr known), same⟩

theorem dedupAfter_subset (last : Diagnostic) (l : List Diagnostic) : dedupAfter last l ⊆ l := by
  induction l generalizing last with
  | nil => exact List.Subset.refl _
  | cons d rest ih =>
    rw [dedupAfter]
    split
    · exact fun r member => mem_cons_of_mem d (ih last member)
    · exact cons_subset_cons d (ih d)

theorem dedup_covers (l : List Diagnostic) : ∀ r ∈ l, ∃ r' ∈ dedup l, core r' = core r := by
  cases l with
  | nil =>
    intro r member
    cases member
  | cons d rest =>
    intro r member
    rcases mem_cons.mp member with rfl | later
    · exact ⟨r, mem_cons_self, rfl⟩
    · obtain ⟨r', known, same⟩ := dedupAfter_covers d rest r later
      exact ⟨r', mem_cons.mpr known, same⟩

theorem dedup_subset (l : List Diagnostic) : dedup l ⊆ l := by
  cases l with
  | nil => exact List.Subset.refl _
  | cons d rest => exact cons_subset_cons d (dedupAfter_subset d rest)

/-- A diagnostic stands for another one: they are equal but for their related information, and that of the other one is
there, too. -/
def StandsFor (a x : Diagnostic) : Prop :=
  headCore a = headCore x ∧ ∀ r ∈ x.relatedInformation, ∃ r' ∈ a.relatedInformation, core r' = core r

theorem StandsFor.refl (x : Diagnostic) : StandsFor x x := ⟨rfl, fun r member => ⟨r, member, rfl⟩⟩

theorem StandsFor.trans {b c : Diagnostic} (first : StandsFor a b) (second : StandsFor b c) : StandsFor a c := by
  refine ⟨first.1.trans second.1, fun r member => ?_⟩
  obtain ⟨r', there, same⟩ := second.2 r member
  obtain ⟨r'', here, same'⟩ := first.2 r' there
  exact ⟨r'', here, same'.trans same⟩

/-- A diagnostic comes from others: it is one of them with related information of those that are equal to it. -/
def ComesFrom (l : List Diagnostic) (a : Diagnostic) : Prop :=
  (∃ x ∈ l, a = x.setRelatedInfo a.relatedInformation) ∧
    ∀ r ∈ a.relatedInformation, ∃ x ∈ l, headCore x = headCore a ∧ r ∈ x.relatedInformation

@[simp] theorem relatedInformation_setRelatedInfo (d : Diagnostic) (related : List Diagnostic) :
    (d.setRelatedInfo related).relatedInformation = related := by
  cases d
  rfl

@[simp] theorem headCore_setRelatedInfo (d : Diagnostic) (related : List Diagnostic) :
    headCore (d.setRelatedInfo related) = headCore d := by
  cases d
  rfl

theorem setRelatedInfo_self (d : Diagnostic) : d.setRelatedInfo d.relatedInformation = d := by
  cases d
  rfl

theorem setRelatedInfo_twice (d : Diagnostic) (related related' : List Diagnostic) :
    (d.setRelatedInfo related).setRelatedInfo related' = d.setRelatedInfo related' := by
  cases d
  rfl

theorem compareHeads_setRelatedInfo (d d' : Diagnostic) (related related' : List Diagnostic) :
    compareHeads (d.setRelatedInfo related) (d'.setRelatedInfo related') = compareHeads d d' := by
  cases d
  cases d'
  rfl

theorem ComesFrom.self {x : Diagnostic} (member : x ∈ l) : ComesFrom l x :=
  ⟨⟨x, member, (setRelatedInfo_self x).symm⟩, fun _ listed => ⟨x, member, rfl, listed⟩⟩

theorem ComesFrom.trans (from_ : ComesFrom l' a) (all : ∀ x ∈ l', ComesFrom l x) : ComesFrom l a := by
  obtain ⟨⟨x, member, shape⟩, related⟩ := from_
  constructor
  · obtain ⟨⟨y, there, shape'⟩, -⟩ := all x member
    refine ⟨y, there, ?_⟩
    rw [shape, shape', setRelatedInfo_twice, relatedInformation_setRelatedInfo]
  · intro r listed
    obtain ⟨y, there, same, inside⟩ := related r listed
    obtain ⟨z, member', same', inside'⟩ := (all y there).2 r inside
    exact ⟨z, member', same'.trans same, inside'⟩

variable {d : Diagnostic} {run l : List Diagnostic}

theorem mergeRelatedInfos_stands (alike : ∀ y ∈ run, headCore d = headCore y) :
    ∀ x ∈ d :: run, StandsFor (mergeRelatedInfos d run) x := by
  intro x member
  have same : headCore d = headCore x := by
    rcases mem_cons.mp member with rfl | later
    · rfl
    · exact alike x later
  unfold mergeRelatedInfos
  dsimp only
  split
  · rename_i alone
    rw [alone, mem_singleton] at member
    rw [member]
    exact .refl d
  have inside (r : Diagnostic) (listed : r ∈ x.relatedInformation) :
      r ∈ (d :: run).flatMap Diagnostic.relatedInformation := mem_flatMap.mpr ⟨x, member, listed⟩
  split
  · rename_i none_
    refine ⟨same, fun r listed => ?_⟩
    have found := inside r listed
    rw [none_] at found
    cases found
  · refine ⟨(headCore_setRelatedInfo _ _).trans same, fun r listed => ?_⟩
    rw [relatedInformation_setRelatedInfo]
    exact dedup_covers _ r (mem_sortBy.mpr (inside r listed))

theorem mergeRelatedInfos_comesFrom (alike : ∀ y ∈ run, headCore d = headCore y) (inside : d :: run ⊆ l) :
    ComesFrom l (mergeRelatedInfos d run) := by
  have own : ComesFrom l d := .self (inside mem_cons_self)
  unfold mergeRelatedInfos
  dsimp only
  split
  · exact own
  split
  · exact own
  refine ⟨⟨d, inside mem_cons_self, by rw [relatedInformation_setRelatedInfo]⟩, fun r listed => ?_⟩
  rw [relatedInformation_setRelatedInfo] at listed
  obtain ⟨x, member, there⟩ := mem_flatMap.mp (mem_sortBy.mp (dedup_subset _ listed))
  refine ⟨x, inside member, ?_, there⟩
  rw [headCore_setRelatedInfo]
  rcases mem_cons.mp member with rfl | later
  · rfl
  · exact (alike x later).symm

theorem runs_spec {g : Diagnostic × List Diagnostic} (listed : g ∈ runs equalDiagnosticsNoRelatedInfo l) :
    (∀ y ∈ g.2, headCore g.1 = headCore y) ∧ g.1 :: g.2 ⊆ l := by
  cases l with
  | nil => cases listed
  | cons a rest =>
    have same := run_same (fun y member => by cases member) listed
    obtain ⟨head, tail⟩ := run_subset listed
    refine ⟨fun y member => (equalDiagnosticsNoRelatedInfo_iff _ _).mp (same y member), fun y member => ?_⟩
    rcases mem_cons.mp member with rfl | later
    · exact mem_cons.mpr head
    · exact mem_cons_of_mem a ((tail y later).resolve_left (by simp))

theorem sortAndDeduplicate_stands (l : List Diagnostic) : ∀ x ∈ l, ∃ a ∈ sortAndDeduplicateDiagnostics l, StandsFor a x := by
  intro x member
  have sorted : x ∈ sortBy compareDiagnostics l := mem_sortBy.mpr member
  obtain ⟨g, listed, inside⟩ : ∃ g ∈ runs equalDiagnosticsNoRelatedInfo (sortBy compareDiagnostics l), x ∈ g.1 :: g.2 := by
    generalize sortBy compareDiagnostics l = sorted_ at sorted
    cases sorted_ with
    | nil => cases sorted
    | cons a rest =>
      have found : ∃ g ∈ runsFrom equalDiagnosticsNoRelatedInfo a [] rest, x = g.1 ∨ x ∈ g.2 :=
        exists_run (by simpa using sorted)
      obtain ⟨g, listed, inside⟩ := found
      exact ⟨g, listed, mem_cons.mpr inside⟩
  exact ⟨_, mem_map.mpr ⟨g, listed, rfl⟩, mergeRelatedInfos_stands (runs_spec listed).1 x inside⟩

theorem sortAndDeduplicate_comesFrom (l : List Diagnostic) : ∀ a ∈ sortAndDeduplicateDiagnostics l, ComesFrom l a := by
  intro a member
  obtain ⟨g, listed, rfl⟩ := mem_map.mp member
  obtain ⟨alike, inside⟩ := runs_spec listed
  exact mergeRelatedInfos_comesFrom alike fun y member => mem_sortBy.mp (inside member)

/-- Diagnostics that compare alike but for their related information are equal but for it. -/
def Consistent (l : List Diagnostic) : Prop := ∀ x ∈ l, ∀ y ∈ l, compareHeads x y = .eq ↔ headCore x = headCore y

theorem consistent_singleton (x : Diagnostic) : Consistent [x] := by
  intro y left z right
  obtain rfl := mem_singleton.mp left
  obtain rfl := mem_singleton.mp right
  exact iff_of_true (lawful_compareHeads.refl _) rfl

theorem Consistent.comesFrom (consistent : Consistent l) (all : ∀ a ∈ l', ComesFrom l a) : Consistent l' := by
  intro a left b right
  obtain ⟨⟨x, member, shape⟩, -⟩ := all a left
  obtain ⟨⟨y, member', shape'⟩, -⟩ := all b right
  rw [shape, shape', compareHeads_setRelatedInfo, headCore_setRelatedInfo, headCore_setRelatedInfo]
  exact consistent x member y member'

theorem sortAndDeduplicate_distinct (consistent : Consistent l) :
    (sortAndDeduplicateDiagnostics l).Pairwise fun a b => headCore a ≠ headCore b := by
  have sorted := (pairwise_sortBy lawful_compareDiagnostics l).imp compareHeads_of_compareDiagnostics
  have exact_ (x : Diagnostic) (left : x ∈ sortBy compareDiagnostics l) (y : Diagnostic) (right : y ∈ sortBy compareDiagnostics l) :
      compareHeads x y = .eq ↔ headCore x = headCore y := consistent x (mem_sortBy.mp left) y (mem_sortBy.mp right)
  generalize within : sortBy compareDiagnostics l = all at sorted exact_
  rw [sortAndDeduplicateDiagnostics, within, compactAndMergeRelatedInfos, pairwise_map]
  cases all with
  | nil => exact List.Pairwise.nil
  | cons a rest =>
    have increasing : (runsFrom equalDiagnosticsNoRelatedInfo a [] rest).Pairwise fun g g' => compareHeads g.1 g'.1 = .lt :=
      runs_increasing lawful_compareHeads sorted fun x left y right same => (equalDiagnosticsNoRelatedInfo_iff x y).mpr ((exact_ x left y right).mp same)
    refine increasing.imp_of_mem fun {g g'} listed listed' lower same => ?_
    obtain ⟨alike, inside⟩ := runs_spec listed
    obtain ⟨alike', inside'⟩ := runs_spec listed'
    have heads : headCore g.1 = headCore g'.1 :=
      (mergeRelatedInfos_stands alike g.1 mem_cons_self).1.symm.trans
        (same.trans (mergeRelatedInfos_stands alike' g'.1 mem_cons_self).1)
    have equal := (exact_ g.1 (inside mem_cons_self) g'.1 (inside' mem_cons_self)).mpr heads
    rw [lower] at equal
    cases equal
end

variable {d d' : Diagnostic} {l l' run run' : List Diagnostic}

theorem cores_eq_map (l : List Diagnostic) : cores l = l.map core := by
  induction l with
  | nil => rfl
  | cons d l ih => rw [cores, ih, map_cons]

theorem core_eq_iff : core d = core d' ↔
    headCore d = headCore d' ∧ d.relatedInformation.map core = d'.relatedInformation.map core := by
  rw [← equalDiagnostics_iff, ← equalDiagnosticsNoRelatedInfo_iff, ← cores_eq_map, ← cores_eq_map, ← equalRelatedInfo_iff]
  cases d
  rw [equalDiagnostics, Bool.and_eq_true]
  rfl

/-- On some diagnostics, comparing finds exactly those the same that are equal. -/
def ComparesExactly (l : List Diagnostic) : Prop :=
  ∀ x ∈ l, ∀ y ∈ l, compareDiagnostics x y = .eq ↔ equalDiagnostics x y = true

def Alike (d d' : Diagnostic) : Prop := core d = core d'

theorem ComparesExactly.sorts {all : List Diagnostic} (exact_ : ComparesExactly all) (inside : l ⊆ all) (inside' : l' ⊆ all)
    (same : (l.map core).Perm (l'.map core)) :
    Forall₂ Alike (sortBy compareDiagnostics l) (sortBy compareDiagnostics l') :=
  sortBy_of_perm lawful_compareDiagnostics (fun x left y right => (exact_ x left y right).trans (equalDiagnostics_iff x y))
    inside inside' same

theorem dedupAfter_aligned (aligned : Forall₂ Alike l l') :
    ∀ {last last'}, Alike last last' → Forall₂ Alike (dedupAfter last l) (dedupAfter last' l') := by
  induction aligned with
  | nil => exact fun _ => .nil
  | @cons d d' rest rest' here _ ih =>
    intro last last' before
    have same : equalDiagnostics d last = equalDiagnostics d' last' := by
      rw [Bool.eq_iff_iff, equalDiagnostics_iff, equalDiagnostics_iff, here, before]
    rw [dedupAfter, dedupAfter, same]
    split
    · exact ih before
    · exact .cons here (ih here)

theorem dedup_aligned (aligned : Forall₂ Alike l l') : Forall₂ Alike (dedup l) (dedup l') := by
  cases aligned with
  | nil => exact .nil
  | cons here later => exact .cons here (dedupAfter_aligned later here)

theorem mergeRelatedInfos_aligned {all : List Diagnostic} (exact_ : ComparesExactly (all.flatMap Diagnostic.relatedInformation))
    (inside : d :: run ⊆ all) (inside' : d' :: run' ⊆ all) (here : Alike d d') (runs : Forall₂ Alike run run') :
    Alike (mergeRelatedInfos d run) (mergeRelatedInfos d' run') := by
  have related : Forall₂ Alike ((d :: run).flatMap Diagnostic.relatedInformation)
      ((d' :: run').flatMap Diagnostic.relatedInformation) :=
    rel_flatMap (.cons here runs) fun _ _ same => forall₂_key.mpr (core_eq_iff.mp same).2
  have within {m : List Diagnostic} (sub : m ⊆ all) :
      m.flatMap Diagnostic.relatedInformation ⊆ all.flatMap Diagnostic.relatedInformation := fun r listed => by
    obtain ⟨x, member, there⟩ := mem_flatMap.mp listed
    exact mem_flatMap.mpr ⟨x, sub member, there⟩
  have sorted := exact_.sorts (within inside) (within inside') (.of_eq (forall₂_key.mp related))
  cases runs with
  | nil => exact here
  | cons first rest =>
    rw [mergeRelatedInfos, mergeRelatedInfos, if_neg (cons_ne_nil _ _), if_neg (cons_ne_nil _ _)]
    dsimp only
    generalize (d :: _ :: _).flatMap Diagnostic.relatedInformation = infos at related sorted ⊢
    generalize (d' :: _ :: _).flatMap Diagnostic.relatedInformation = infos' at related sorted ⊢
    cases related with
    | nil => exact here
    | cons _ _ =>
      rw [if_neg (cons_ne_nil _ _), if_neg (cons_ne_nil _ _)]
      refine core_eq_iff.mpr ⟨?_, ?_⟩
      · rw [headCore_setRelatedInfo, headCore_setRelatedInfo]
        exact (core_eq_iff.mp here).1
      · rw [relatedInformation_setRelatedInfo, relatedInformation_setRelatedInfo]
        exact forall₂_key.mp (dedup_aligned sorted)

/-- Diagnostics that arrive in another order are reported alike. -/
theorem sortAndDeduplicate_perm (same : l.Perm l') (heads : ComparesExactly l)
    (related : ComparesExactly (l.flatMap Diagnostic.relatedInformation)) :
    equalRelatedInfo (sortAndDeduplicateDiagnostics l) (sortAndDeduplicateDiagnostics l') = true := by
  have sorted := heads.sorts (List.Subset.refl l) same.symm.subset (same.map core)
  have inside (x : Diagnostic) (member : x ∈ sortBy compareDiagnostics l) : x ∈ l := mem_sortBy.mp member
  have inside' (x : Diagnostic) (member : x ∈ sortBy compareDiagnostics l') : x ∈ l := same.mem_iff.mpr (mem_sortBy.mp member)
  rw [equalRelatedInfo_iff, cores_eq_map, cores_eq_map, ← forall₂_key, sortAndDeduplicateDiagnostics,
    sortAndDeduplicateDiagnostics]
  generalize sortBy compareDiagnostics l = s at sorted inside ⊢
  generalize sortBy compareDiagnostics l' = s' at sorted inside' ⊢
  have groups : Forall₂ (fun g g' => Alike g.1 g'.1 ∧ Forall₂ Alike g.2 g'.2) (runs equalDiagnosticsNoRelatedInfo s)
      (runs equalDiagnosticsNoRelatedInfo s') := by
    cases sorted with
    | nil => exact .nil
    | cons here later =>
      refine runsFrom_aligned (fun {a a' b b'} first second => ?_) later here .nil
      rw [Bool.eq_iff_iff, equalDiagnosticsNoRelatedInfo_iff, equalDiagnosticsNoRelatedInfo_iff, (core_eq_iff.mp first).1,
        (core_eq_iff.mp second).1]
  unfold compactAndMergeRelatedInfos
  rw [forall₂_map_left_iff, forall₂_map_right_iff, forall₂_iff_zip]
  obtain ⟨lengths, each⟩ := forall₂_iff_zip.mp groups
  refine ⟨lengths, fun {g g'} pair => ?_⟩
  obtain ⟨left, right⟩ := of_mem_zip pair
  exact mergeRelatedInfos_aligned related (fun x member => inside x ((runs_spec left).2 member))
    (fun x member => inside' x ((runs_spec right).2 member)) (each pair).1 (each pair).2

def declaredHere (pos : Int) : Diagnostic := .mk none pos (pos + 1) 1349 [] [] [] none none

def valueNotFound (relatedPositions : List Int) : Diagnostic :=
  .mk none 5 6 2304 ["value"] [] (relatedPositions.map declaredHere) none none

theorem sortAndDeduplicate_perm_value :
    equalRelatedInfo (sortAndDeduplicateDiagnostics [valueNotFound [30], valueNotFound [10], valueNotFound [20, 10]])
      (sortAndDeduplicateDiagnostics [valueNotFound [20, 10], valueNotFound [10], valueNotFound [30]]) = true :=
  sortAndDeduplicate_perm (reverse_perm _).symm (by unfold ComparesExactly; decide +kernel)
    (by unfold ComparesExactly; decide +kernel)

end TypeScriptRs.Diagnostics
