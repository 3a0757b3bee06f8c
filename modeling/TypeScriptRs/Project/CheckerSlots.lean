import TypeScriptRs.Diagnostics.Deduplication
import TypeScriptRs.Project.CheckerPool

/-! No slot of the pool is handed out twice, and no global diagnostic is lost. -/
namespace TypeScriptRs.Project.CheckerPool
open Machine Diagnostics List

variable {C F : Type}

namespace PoolState

variable {state state' : PoolState F} {requestId : String} {slot : Nat}

section
variable [DecidableEq F]

structure Acquired (state state' : PoolState F) (requestId : String) (slot : Nat) : Prop where
  free : state.activeSlots[slot]? = some false
  active : state'.activeSlots = state.activeSlots.set slot true
  requests : ∀ id slot', state'.requestAssociations.lookup id = some slot' →
    (id = requestId ∧ id ≠ "" ∧ slot' = slot) ∨ state.requestAssociations.lookup id = some slot'
  files : ∀ key slot', state'.fileAssociations.lookup key = some slot' →
    slot' = slot ∨ state.fileAssociations.lookup key = some slot'
  counts : state'.globalDiagCheckerCount = state.globalDiagCheckerCount
  accumulated : state'.globalDiagAccumulated = state.globalDiagAccumulated

theorem activate_acquired (free : state.activeSlots[slot]? = some false) : Acquired state (state.activate slot) requestId slot :=
  ⟨free, rfl, fun _ _ found => .inr found, fun _ _ found => .inr found, rfl, rfl⟩

theorem Acquired.associateRequest (acquired : Acquired state state' requestId slot) :
    Acquired state (state'.associateRequest requestId slot) requestId slot := by
  unfold PoolState.associateRequest
  split
  · exact acquired
  rename_i named
  refine { acquired with requests := fun id slot' found => ?_ }
  rw [HashMap.lookup_insert_if] at found
  split at found
  · rename_i same
    cases found
    exact .inl ⟨same, same ▸ named, rfl⟩
  · exact acquired.requests id slot' found

theorem Acquired.associateFile (acquired : Acquired state state' requestId slot) (fileKey : Option F) :
    Acquired state (state'.associateFile fileKey slot) requestId slot := by
  unfold PoolState.associateFile
  split
  · exact acquired
  refine { acquired with files := fun key slot' found => ?_ }
  dsimp only at found
  rw [HashMap.lookup_insert_if] at found
  split at found
  · cases found
    exact .inl rfl
  · exact acquired.files key slot' found

omit [DecidableEq F] in
theorem isActive_eq {active : Bool} (known : state.activeSlots[slot]? = some active) : state.isActive slot = .ok active := by
  rw [isActive, known]

/-- A turn of a call gives it no slot, or a slot that was free. -/
def Turn (state : PoolState F) (requestId : String) (result : Option Nat × PoolState F) : Prop :=
  result = (none, state) ∨ ∃ slot state', result = (some slot, state') ∧ Acquired state state' requestId slot

section
variable (inBounds : ∀ key slot, state.fileAssociations.lookup key = some slot → slot < state.activeSlots.length) (fileKey : Option F)
include inBounds fileKey

theorem slotOfFile_eq : ∃ found, state.slotOfFile fileKey = .ok found ∧
      ∀ slot, found = some slot → state.activeSlots[slot]? = some false := by
  unfold slotOfFile
  split
  · exact ⟨none, rfl, fun slot none_ => by cases none_⟩
  rename_i slot found
  obtain ⟨key, -, known⟩ := Option.bind_eq_some_iff.mp found
  have inside := inBounds key slot known
  have here : state.activeSlots[slot]? = some state.activeSlots[slot] := List.getElem?_eq_getElem inside
  rw [isActive_eq here]
  cases active : state.activeSlots[slot] with
  | true => exact ⟨none, rfl, fun slot none_ => by cases none_⟩
  | false =>
    refine ⟨some slot, rfl, fun slot' same => ?_⟩
    cases same
    rw [here, active]

theorem acquireCheckerSlot_turn (fresh : state.associated requestId = none) :
    ∃ result, state.acquireCheckerSlot [] fileKey requestId = .ok result ∧ Turn state requestId result := by
  obtain ⟨found, slotOfFile, free⟩ := slotOfFile_eq inBounds fileKey
  unfold acquireCheckerSlot
  rw [fresh]
  dsimp only
  rw [slotOfFile, Outcome.bind_ok]
  cases found with
  | some slot => exact ⟨_, rfl, .inr ⟨slot, _, rfl, (activate_acquired (free slot rfl)).associateRequest⟩⟩
  | none =>
    dsimp only
    split
    · rename_i slot first
      have here : state.activeSlots[slot]? = some false := by
        obtain ⟨inside, inactive, -⟩ := List.findIdx?_eq_some_iff_getElem.mp first
        rw [List.getElem?_eq_getElem inside]
        simpa using inactive
      exact ⟨_, rfl, .inr ⟨slot, _, rfl, ((activate_acquired here).associateFile fileKey).associateRequest⟩⟩
    · exact ⟨_, rfl, .inl rfl⟩
end

theorem acquireCheckerSlotByIndex_turn (slot : Nat) (fresh : state.associated requestId = none) :
    state.acquireCheckerSlotByIndex [] slot requestId = .panic slotInBounds ∨
    ∃ result, state.acquireCheckerSlotByIndex [] slot requestId = .ok result ∧ Turn state requestId result := by
  unfold acquireCheckerSlotByIndex
  split
  · exact .inl rfl
  rename_i inside
  right
  rw [fresh]
  dsimp only
  have here : state.activeSlots[slot]? = some state.activeSlots[slot] := List.getElem?_eq_getElem (by omega)
  rw [isActive_eq here, Outcome.bind_ok]
  cases active : state.activeSlots[slot] with
  | true => exact ⟨_, rfl, .inl rfl⟩
  | false =>
    have free : state.activeSlots[slot]? = some false := by rw [here, active]
    exact ⟨_, rfl, .inr ⟨slot, _, rfl, (activate_acquired free).associateRequest⟩⟩
end

structure Released (state state' : PoolState F) (requestId : String) (slot : Nat) : Prop where
  active : state'.activeSlots = state.activeSlots.set slot false
  requests : ∀ id slot', state'.requestAssociations.lookup id = some slot' →
    state.requestAssociations.lookup id = some slot' ∧ (requestId = "" ∨ id ≠ requestId)
  files : state'.fileAssociations = state.fileAssociations

theorem dissociate_requests (state : PoolState F) (requestId id : String) (slot : Nat)
    (found : (state.dissociate requestId).requestAssociations.lookup id = some slot) :
    state.requestAssociations.lookup id = some slot ∧ (requestId = "" ∨ id ≠ requestId) := by
  unfold dissociate at found
  split at found
  · rename_i anonymous
    exact ⟨found, .inl anonymous⟩
  dsimp only at found
  rw [HashMap.lookup_erase_if] at found
  split at found
  · cases found
  · rename_i other
    exact ⟨found, .inr other⟩

theorem dissociate_rest (state : PoolState F) (requestId : String) :
    (state.dissociate requestId).activeSlots = state.activeSlots ∧
    (state.dissociate requestId).fileAssociations = state.fileAssociations ∧
    (state.dissociate requestId).globalDiagCheckerCount = state.globalDiagCheckerCount ∧
    (state.dissociate requestId).globalDiagAccumulated = state.globalDiagAccumulated := by
  unfold dissociate
  split
  · exact ⟨rfl, rfl, rfl, rfl⟩
  · exact ⟨rfl, rfl, rfl, rfl⟩

theorem releaseCheckerSlotWithoutDiagnostics_released (state : PoolState F) (requestId : String) (slot : Nat) :
    Released state (state.releaseCheckerSlotWithoutDiagnostics requestId slot) requestId slot where
  active := by
    rw [releaseCheckerSlotWithoutDiagnostics]
    dsimp only
    rw [(state.dissociate_rest requestId).1]
  requests := fun id slot' found => state.dissociate_requests requestId id slot' found
  files := (state.dissociate_rest requestId).2.1

/-- What becomes of the count of a slot and of the diagnostics. -/
inductive Recorded (state state' : PoolState F) (slot count : Nat) (canceled : Bool) (globals : List Diagnostic) : Prop where
  | canceled (was : canceled = true) (counts : state'.globalDiagCheckerCount = state.globalDiagCheckerCount.set slot 0)
      (accumulated : state'.globalDiagAccumulated = state.globalDiagAccumulated)
  | unchanged (was : canceled = false) (same : globals.length = count)
      (counts : state'.globalDiagCheckerCount = state.globalDiagCheckerCount)
      (accumulated : state'.globalDiagAccumulated = state.globalDiagAccumulated)
  | accumulated (was : canceled = false) (counts : state'.globalDiagCheckerCount = state.globalDiagCheckerCount.set slot globals.length)
      (accumulated : state'.globalDiagAccumulated = sortAndDeduplicateDiagnostics (state.globalDiagAccumulated ++ globals))

theorem deactivate_eq (active : state.activeSlots[slot]? = some true) :
    state.deactivate slot = .ok { state with activeSlots := state.activeSlots.set slot false } := by
  rw [deactivate, active]

theorem releaseChecker_spec (active : state.activeSlots[slot]? = some true) {count : Nat}
    (counted : state.globalDiagCheckerCount[slot]? = some count) (canceled : Bool) (globals : List Diagnostic) :
    ∃ state', state.releaseChecker requestId slot canceled globals = .ok state' ∧ Released state state' requestId slot ∧
      Recorded state state' slot count canceled globals := by
  obtain ⟨slots, files, counts, accumulated⟩ := state.dissociate_rest requestId
  have requests := state.dissociate_requests requestId
  generalize start : state.dissociate requestId = after at slots files counts accumulated requests
  rw [← slots] at active
  rw [← counts] at counted
  have countOf : after.countOf slot = .ok count := by rw [PoolState.countOf, counted]
  unfold releaseChecker
  rw [start]
  dsimp only
  rw [countOf, Outcome.bind_ok]
  cases canceled with
  | true =>
    refine ⟨_, deactivate_eq active, ⟨by rw [← slots]; rfl, requests, files⟩, ?_⟩
    exact .canceled rfl (by rw [← counts]; rfl) accumulated
  | false =>
    rw [if_neg Bool.false_ne_true]
    split
    · rename_i same
      exact ⟨_, deactivate_eq active, ⟨by rw [← slots], requests, files⟩, .unchanged rfl same counts accumulated⟩
    · refine ⟨_, deactivate_eq active, ⟨by rw [← slots]; rfl, requests, files⟩, ?_⟩
      exact .accumulated rfl (by rw [← counts]; rfl) (by rw [← accumulated]; rfl)

end PoolState

namespace System

variable [DecidableEq C] [DecidableEq F] {requestId : C → String} {s s' : System C F} {c d : C} {slot : Nat}

section
def holding : Call F → Option Nat
  | .acquired slot | .running slot | .unwinding slot => some slot
  | .idle | .acquiring _ | .released _ _ => none

def locking : Call F → Option Nat
  | .running slot | .released slot _ => some slot
  | .idle | .acquiring _ | .acquired _ | .unwinding _ => none

def Holds (s : System C F) (c : C) (slot : Nat) : Prop := holding (s.calls c) = some slot

/-- What the accumulated diagnostics are to those that were present at releases. -/
structure Union (s : System C F) : Prop where
  stands : ∀ x ∈ s.present, ∃ a ∈ s.pool.globalDiagAccumulated, StandsFor a x
  comesFrom : ∀ a ∈ s.pool.globalDiagAccumulated, ComesFrom s.present a
  distinct : Consistent s.present →
    s.pool.globalDiagAccumulated.Pairwise fun a b => equalDiagnosticsNoRelatedInfo a b = false

/-- The count of a slot is that of diagnostics of its checker that are accumulated. -/
def Counted (s : System C F) (slot count : Nat) : Prop :=
  ∃ recorded : List Diagnostic, recorded.length = count ∧
    (∀ x ∈ recorded, ∃ a ∈ s.pool.globalDiagAccumulated, StandsFor a x) ∧ recorded.Subperm (s.checkers slot)

structure Slots (requestId : C → String) (s : System C F) : Prop where
  counts : s.pool.globalDiagCheckerCount.length = s.pool.activeSlots.length
  active : ∀ slot, s.pool.activeSlots[slot]? = some true ↔ ∃ c, s.Holds c slot
  unique : ∀ c d slot, s.Holds c slot → s.Holds d slot → c = d
  associations : ∀ id slot, s.pool.requestAssociations.lookup id = some slot → id ≠ "" ∧ ∃ c, requestId c = id ∧ s.Holds c slot
  files : ∀ key slot, s.pool.fileAssociations.lookup key = some slot → slot < s.pool.activeSlots.length

/-- The threads and the locks of the checkers against the calls. -/
structure Threads (s : System C F) : Prop where
  threads : ∀ c, s.activePoolSlots c = (locking (s.calls c)).toList
  locks : ∀ slot c, s.locks slot = some c ↔ locking (s.calls c) = some slot

structure Diags (s : System C F) : Prop where
  canceled : ∀ c slot r, s.calls c = .released slot (some r) → s.pool.globalDiagCheckerCount[slot]? = some 0
  counted : ∀ slot count, s.pool.globalDiagCheckerCount[slot]? = some count → s.Counted slot count
  union : s.Union

structure Sound (requestId : C → String) (s : System C F) : Prop where
  slots : Slots requestId s
  threads : Threads s
  diags : Diags s

omit [DecidableEq C] in
theorem initial_sound (requestId : C → String) (maxCheckers : Nat) (checkers : Nat → List Diagnostic) :
    Sound requestId (initial maxCheckers checkers : System C F) where
  slots := by
    refine ⟨by simp [initial, newCheckerPool, PoolState.new], fun slot => ⟨fun active => ?_, ?_⟩, fun c d slot held => ?_,
      fun id slot found => ?_, fun key slot found => ?_⟩
    · obtain ⟨_, same⟩ := List.getElem?_eq_some_iff.mp active
      simp [initial, newCheckerPool, PoolState.new] at same
    · rintro ⟨c, held⟩
      cases held
    · cases held
    · cases found
    · cases found
  threads := by
    refine ⟨fun c => rfl, fun slot c => ⟨fun locked => ?_, fun locked => ?_⟩⟩
    · cases locked
    · cases locked
  diags := by
    refine ⟨fun c slot r released => ?_, fun slot count counted => ?_, fun x member => ?_, fun a member => ?_,
      fun _ => List.Pairwise.nil⟩
    · cases released
    · obtain ⟨_, same⟩ := List.getElem?_eq_some_iff.mp counted
      have zero : count = 0 := by
        rw [← same]
        simp [initial, newCheckerPool, PoolState.new]
      exact ⟨[], zero.symm, fun x member => absurd member not_mem_nil, nil_subperm⟩
    · cases member
    · cases member
end

section

omit [DecidableEq F] in
theorem holds_setCall (s : System C F) (c d : C) (call : Call F) (slot : Nat) :
    (s.setCall c call).Holds d slot ↔ if d = c then holding call = some slot else s.Holds d slot := by
  unfold Holds
  change holding (Function.update s.calls c call d) = some slot ↔ _
  rw [Function.update_apply]
  split <;> rfl

omit [DecidableEq F] in
theorem locking_setCall (s : System C F) (c d : C) (call : Call F) :
    locking ((s.setCall c call).calls d) = if d = c then locking call else locking (s.calls d) := by
  change locking (Function.update s.calls c call d) = _
  rw [Function.update_apply]
  split <;> rfl

omit [DecidableEq C] in
theorem Slots.frame (slots : Slots requestId s) (pool : s'.pool = s.pool)
    (same : ∀ c, holding (s'.calls c) = holding (s.calls c)) : Slots requestId s' := by
  have holds (c : C) (slot : Nat) : s'.Holds c slot ↔ s.Holds c slot := by rw [Holds, same, Holds]
  refine ⟨?_, ?_, ?_, ?_, ?_⟩
  · rw [pool]
    exact slots.counts
  · simpa only [pool, holds] using slots.active
  · simpa only [holds] using slots.unique
  · simpa only [pool, holds] using slots.associations
  · rw [pool]
    exact slots.files

omit [DecidableEq C] [DecidableEq F] in
theorem Threads.frame (threads : Threads s) (stacks_ : s'.activePoolSlots = s.activePoolSlots) (locks : s'.locks = s.locks)
    (same : ∀ c, locking (s'.calls c) = locking (s.calls c)) : Threads s' := by
  refine ⟨fun c => ?_, fun slot c => ?_⟩
  · rw [stacks_, same]
    exact threads.threads c
  · rw [locks, same]
    exact threads.locks slot c

omit [DecidableEq C] [DecidableEq F] in
theorem Diags.frame (diags : Diags s) (counts : s'.pool.globalDiagCheckerCount = s.pool.globalDiagCheckerCount)
    (accumulated : s'.pool.globalDiagAccumulated = s.pool.globalDiagAccumulated) (present : s'.present = s.present)
    (checkers : ∀ slot count, s.pool.globalDiagCheckerCount[slot]? = some count → (s.checkers slot).Subperm (s'.checkers slot) ∨ count = 0)
    (replaced : ∀ c slot r, s'.calls c = .released slot (some r) → s.calls c = .released slot (some r)) : Diags s' := by
  refine ⟨fun c slot r released => ?_, fun slot count counted => ?_, ⟨?_, ?_, ?_⟩⟩
  · rw [counts]
    exact diags.canceled c slot r (replaced c slot r released)
  · rw [counts] at counted
    obtain ⟨recorded, length, stands, within⟩ := diags.counted slot count counted
    rcases checkers slot count counted with grown | zero
    · exact ⟨recorded, length, by rwa [accumulated], within.trans grown⟩
    · obtain rfl := length_eq_zero_iff.mp (length.trans zero)
      exact ⟨[], length, fun x member => absurd member not_mem_nil, nil_subperm⟩
  · rw [present, accumulated]
    exact diags.union.stands
  · rw [present, accumulated]
    exact diags.union.comesFrom
  · rw [present, accumulated]
    exact diags.union.distinct
end

section

omit [DecidableEq C] in
theorem Slots.fresh (distinct : ∀ p q, requestId p = requestId q → requestId p ≠ "" → p = q) (slots : Slots requestId s)
    (empty : holding (s.calls c) = none) : s.pool.associated (requestId c) = none := by
  unfold PoolState.associated
  split
  · rfl
  rename_i named
  rw [Option.eq_none_iff_forall_ne_some]
  intro slot found
  obtain ⟨-, d, same, held⟩ := slots.associations _ slot found
  obtain rfl := distinct c d same.symm named
  rw [Holds, empty] at held
  cases held

theorem Slots.acquire (slots : Slots requestId s) {pool : PoolState F} (empty : holding (s.calls c) = none)
    (acquired : PoolState.Acquired s.pool pool (requestId c) slot) :
    Slots requestId ({ s with pool }.setCall c (.acquired slot)) := by
  have inside : slot < s.pool.activeSlots.length := (List.getElem?_eq_some_iff.mp acquired.free).1
  have holds (d : C) (slot' : Nat) : ({ s with pool }.setCall c (.acquired slot)).Holds d slot' ↔
      if d = c then slot = slot' else s.Holds d slot' := by
    rw [holds_setCall]
    simp only [holding, Option.some.injEq]
    rfl
  have not_held (d : C) : ¬ s.Holds d slot := fun held => by
    have active := (slots.active slot).mpr ⟨d, held⟩
    rw [acquired.free] at active
    cases active
  have idle (slot' : Nat) : ¬ s.Holds c slot' := fun held => by
    rw [Holds, empty] at held
    cases held
  have other_than {d : C} {slot' : Nat} (held : s.Holds d slot') : d ≠ c := fun same => idle slot' (same ▸ held)
  refine ⟨?_, fun slot' => ?_, fun d e slot' left right => ?_, fun id slot' found => ?_, fun key slot' found => ?_⟩
  · change pool.globalDiagCheckerCount.length = pool.activeSlots.length
    rw [acquired.counts, acquired.active, length_set]
    exact slots.counts
  · change pool.activeSlots[slot']? = some true ↔ _
    rw [acquired.active, List.getElem?_set, if_pos inside]
    split
    · rename_i same
      subst same
      exact ⟨fun _ => ⟨c, (holds c slot).mpr (by simp)⟩, fun _ => rfl⟩
    rename_i other
    rw [slots.active slot']
    constructor
    · rintro ⟨d, held⟩
      refine ⟨d, (holds d slot').mpr ?_⟩
      rw [if_neg (other_than held)]
      exact held
    rintro ⟨d, held⟩
    rw [holds] at held
    split at held
    · exact absurd held other
    · exact ⟨d, held⟩
  · rw [holds] at left right
    split at left
    · rename_i same
      subst same left
      split at right
      · rename_i same'
        exact same'.symm
      · exact absurd right (not_held e)
    · split at right
      · subst right
        exact absurd left (not_held d)
      · exact slots.unique d e slot' left right
  · rcases acquired.requests id slot' found with ⟨rfl, named, rfl⟩ | before
    · exact ⟨named, c, rfl, (holds c slot').mpr (by simp)⟩
    · obtain ⟨named, d, same, held⟩ := slots.associations id slot' before
      refine ⟨named, d, same, (holds d slot').mpr ?_⟩
      rw [if_neg (other_than held)]
      exact held
  · change slot' < pool.activeSlots.length
    rw [acquired.active, length_set]
    rcases acquired.files key slot' found with rfl | before
    · exact inside
    · exact slots.files key slot' before

theorem Slots.release (slots : Slots requestId s) {pool : PoolState F} {present : List Diagnostic} {call : Call F}
    (held : s.Holds c slot) (released : PoolState.Released s.pool pool (requestId c) slot)
    (counts : pool.globalDiagCheckerCount.length = s.pool.globalDiagCheckerCount.length) (empty : holding call = none) :
    Slots requestId ({ s with pool, present }.setCall c call) := by
  have holds (d : C) (slot' : Nat) : ({ s with pool, present }.setCall c call).Holds d slot' ↔ d ≠ c ∧ s.Holds d slot' := by
    rw [holds_setCall, empty]
    split
    · rename_i same
      simp [same]
    · rename_i other
      exact (and_iff_right other).symm
  refine ⟨?_, fun slot' => ?_, fun d e slot' left right => ?_, fun id slot' found => ?_, fun key slot' found => ?_⟩
  · change pool.globalDiagCheckerCount.length = pool.activeSlots.length
    rw [counts, released.active, length_set]
    exact slots.counts
  · change pool.activeSlots[slot']? = some true ↔ _
    rw [released.active, List.getElem?_set]
    split
    · rename_i same
      subst same
      constructor
      · intro active
        split at active
        · cases active
        · cases active
      · rintro ⟨d, still⟩
        obtain ⟨other, still⟩ := (holds d slot).mp still
        exact absurd (slots.unique d c slot still held) other
    · rename_i other
      rw [slots.active slot']
      constructor
      · rintro ⟨d, still⟩
        refine ⟨d, (holds d slot').mpr ⟨fun same => other ?_, still⟩⟩
        subst same
        exact Option.some.inj (held.symm.trans still)
      · rintro ⟨d, still⟩
        exact ⟨d, ((holds d slot').mp still).2⟩
  · exact slots.unique d e slot' ((holds d slot').mp left).2 ((holds e slot').mp right).2
  · obtain ⟨before, others⟩ := released.requests id slot' found
    obtain ⟨named, d, same, still⟩ := slots.associations id slot' before
    refine ⟨named, d, same, (holds d slot').mpr ⟨fun own => ?_, still⟩⟩
    subst own
    rcases others with anonymous | other
    · exact named (same.symm.trans anonymous)
    · exact other same.symm
  · change slot' < pool.activeSlots.length
    rw [released.active, length_set]
    have before : s.pool.fileAssociations.lookup key = some slot' := by
      rw [← released.files]
      exact found
    exact slots.files key slot' before
end

section

omit [DecidableEq F] in
theorem Threads.lock (threads : Threads s) {call : Call F} (free : s.locks slot = none) (idle : locking (s.calls c) = none)
    (now : locking call = some slot) :
    Threads ({ s with
      locks := Function.update s.locks slot (some c)
      activePoolSlots := Function.update s.activePoolSlots c (slot :: s.activePoolSlots c) }.setCall c call) := by
  refine ⟨fun d => ?_, fun slot' d => ?_⟩
  · rw [locking_setCall]
    change Function.update s.activePoolSlots c (slot :: s.activePoolSlots c) d = _
    rw [Function.update_apply]
    split
    · rw [threads.threads c, idle, now]
      rfl
    · exact threads.threads d
  rw [locking_setCall]
  change Function.update s.locks slot (some c) slot' = some d ↔ _
  rw [Function.update_apply]
  split
  · rename_i same
    subst same
    split
    · rename_i same'
      simp [now, same']
    rename_i other
    refine ⟨fun same' => absurd (Option.some.inj same').symm other, fun locked => ?_⟩
    have taken := (threads.locks slot' d).mpr locked
    rw [free] at taken
    cases taken
  rename_i other
  split
  · rename_i same'
    subst same'
    refine ⟨fun taken => ?_, fun locked => ?_⟩
    · have locked := (threads.locks slot' d).mp taken
      rw [idle] at locked
      cases locked
    · exact absurd (Option.some.inj (locked.symm.trans now)) other
  · exact threads.locks slot' d

omit [DecidableEq F] in
theorem Threads.popStack_eq (threads : Threads s) (locked : locking (s.calls c) = some slot) :
    s.popStack c slot = .ok { s with activePoolSlots := Function.update s.activePoolSlots c [] } := by
  unfold popStack
  rw [threads.threads c, locked]
  exact if_pos rfl

omit [DecidableEq F] in
theorem Threads.unlock (threads : Threads s) {call : Call F} {checkers : Nat → List Diagnostic}
    (locked : locking (s.calls c) = some slot) (now : locking call = none) :
    Threads ({ s with
      activePoolSlots := Function.update s.activePoolSlots c []
      checkers
      locks := Function.update s.locks slot none }.setCall c call) := by
  refine ⟨fun d => ?_, fun slot' d => ?_⟩
  · rw [locking_setCall]
    change Function.update s.activePoolSlots c [] d = _
    rw [Function.update_apply]
    split
    · rw [now]
      rfl
    · exact threads.threads d
  rw [locking_setCall]
  change Function.update s.locks slot none slot' = some d ↔ _
  rw [Function.update_apply]
  split
  · rename_i same
    subst same
    split
    · simp [now]
    rename_i other
    refine ⟨fun none_ => (by cases none_), fun locked' => ?_⟩
    have own := (threads.locks slot' c).mpr locked
    rw [(threads.locks slot' d).mpr locked'] at own
    exact absurd (Option.some.inj own) other
  rename_i other
  split
  · rename_i same'
    subst same'
    refine ⟨fun taken => ?_, fun none_ => ?_⟩
    · exact absurd (Option.some.inj (((threads.locks slot' d).mp taken).symm.trans locked)) other
    · rw [now] at none_
      cases none_
  · exact threads.locks slot' d
end

variable {s' : System C F} {globals : List Diagnostic}

omit [DecidableEq C] [DecidableEq F] in
theorem Union.accumulate (union : s.Union)
    (accumulated : s'.pool.globalDiagAccumulated = sortAndDeduplicateDiagnostics (s.pool.globalDiagAccumulated ++ globals))
    (present : s'.present = s.present ++ globals) : s'.Union := by
  have comesFrom : ∀ a ∈ s.pool.globalDiagAccumulated ++ globals, ComesFrom (s.present ++ globals) a := fun a member => by
    rcases mem_append.mp member with before | here
    · exact (union.comesFrom a before).trans fun x there => .self (mem_append_left globals there)
    · exact .self (mem_append_right s.present here)
  refine ⟨fun x member => ?_, fun a member => ?_, fun consistent => ?_⟩
  · rw [accumulated]
    rw [present] at member
    rcases mem_append.mp member with before | here
    · obtain ⟨a, there, stands⟩ := union.stands x before
      obtain ⟨b, now, stands'⟩ := sortAndDeduplicate_stands _ a (mem_append_left globals there)
      exact ⟨b, now, stands'.trans stands⟩
    · exact sortAndDeduplicate_stands _ x (mem_append_right _ here)
  · rw [accumulated] at member
    rw [present]
    exact (sortAndDeduplicate_comesFrom _ a member).trans comesFrom
  rw [accumulated]
  rw [present] at consistent
  refine (sortAndDeduplicate_distinct (consistent.comesFrom comesFrom)).imp fun {a b} other => ?_
  rw [Bool.eq_false_iff]
  exact fun same => other ((equalDiagnosticsNoRelatedInfo_iff a b).mp same)

omit [DecidableEq C] [DecidableEq F] in
theorem Union.unchanged (union : s.Union)
    (accumulated : s'.pool.globalDiagAccumulated = s.pool.globalDiagAccumulated) (present : s'.present = s.present ++ globals)
    (known : ∀ x ∈ globals, ∃ a ∈ s.pool.globalDiagAccumulated, StandsFor a x) : s'.Union := by
  refine ⟨fun x member => ?_, fun a member => ?_, fun consistent => ?_⟩
  · rw [accumulated]
    rw [present] at member
    rcases mem_append.mp member with before | here
    · exact union.stands x before
    · exact known x here
  · rw [accumulated] at member
    rw [present]
    exact (union.comesFrom a member).trans fun x there => .self (mem_append_left globals there)
  · rw [accumulated]
    rw [present] at consistent
    exact union.distinct fun x left y right => consistent x (mem_append_left globals left) y (mem_append_left globals right)

omit [DecidableEq C] [DecidableEq F] in
theorem Counted.full (counted : s.Counted slot globals.length) (same : s.checkers slot = globals) :
    ∀ x ∈ globals, ∃ a ∈ s.pool.globalDiagAccumulated, StandsFor a x := by
  obtain ⟨recorded, length, stands, within⟩ := counted
  rw [same] at within
  have all := within.perm_of_length_le length.symm.le
  exact fun x member => stands x (all.mem_iff.mpr member)

omit [DecidableEq F] in
theorem Diags.release (diags : Diags s) (threads : Threads s) {pool : PoolState F} {canceled : Bool} {count : Nat}
    {replacement : List Diagnostic} (running : s.calls c = .running slot) (counted : s.pool.globalDiagCheckerCount[slot]? = some count)
    (recorded : PoolState.Recorded s.pool pool slot count canceled (s.checkers slot)) :
    Diags ({ s with pool, present := if canceled then s.present else s.present ++ s.checkers slot }.setCall c
      (.released slot (if canceled then some replacement else none))) := by
  have inside : slot < s.pool.globalDiagCheckerCount.length := (List.getElem?_eq_some_iff.mp counted).1
  -- a call that has a checker to replace holds its lock, so that this slot is not its
  have replacing (d : C) (slot' : Nat) (r : List Diagnostic) (released : s.calls d = .released slot' (some r)) : slot' ≠ slot := by
    rintro rfl
    have mine := (threads.locks slot' c).mpr (by rw [running]; rfl)
    have its := (threads.locks slot' d).mpr (by rw [released]; rfl)
    obtain rfl := Option.some.inj (mine.symm.trans its)
    rw [running] at released
    cases released
  have calls (d : C) (slot' : Nat) (r : List Diagnostic)
      (released : ({ s with pool, present := if canceled then s.present else s.present ++ s.checkers slot }.setCall c
        (.released slot (if canceled then some replacement else none))).calls d = .released slot' (some r)) :
      (slot' = slot ∧ canceled = true) ∨ (slot' ≠ slot ∧ s.calls d = .released slot' (some r)) := by
    change Function.update s.calls c _ d = _ at released
    rw [Function.update_apply] at released
    split at released
    · cases canceled
      · cases released
      · cases released
        exact .inl ⟨rfl, rfl⟩
    · exact .inr ⟨replacing d slot' r released, released⟩
  cases recorded with
  | canceled was counts accumulated =>
    subst was
    refine ⟨fun d slot' r released => ?_, fun slot' count' counted' => ?_, ⟨?_, ?_, ?_⟩⟩
    · change pool.globalDiagCheckerCount[slot']? = some 0
      rw [counts, List.getElem?_set, if_pos inside]
      rcases calls d slot' r released with ⟨rfl, -⟩ | ⟨other, before⟩
      · exact if_pos rfl
      · rw [if_neg other.symm]
        exact diags.canceled d slot' r before
    · change pool.globalDiagCheckerCount[slot']? = some count' at counted'
      rw [counts, List.getElem?_set, if_pos inside] at counted'
      split at counted'
      · cases counted'
        exact ⟨[], rfl, fun x member => absurd member not_mem_nil, nil_subperm⟩
      · obtain ⟨list, length, stands, within⟩ := diags.counted slot' count' counted'
        exact ⟨list, length, fun x member => by
          obtain ⟨a, there, standing⟩ := stands x member
          exact ⟨a, accumulated.symm ▸ there, standing⟩, within⟩
    · intro x member
      obtain ⟨a, there, standing⟩ := diags.union.stands x member
      exact ⟨a, accumulated.symm ▸ there, standing⟩
    · intro a member
      exact diags.union.comesFrom a (accumulated ▸ member)
    · intro consistent
      change pool.globalDiagAccumulated.Pairwise _
      rw [accumulated]
      exact diags.union.distinct consistent
  | unchanged was same counts accumulated =>
    subst was
    have known := Counted.full (same ▸ diags.counted slot count counted) rfl
    refine ⟨fun d slot' r released => ?_, fun slot' count' counted' => ?_, diags.union.unchanged accumulated rfl known⟩
    · rcases calls d slot' r released with ⟨-, no⟩ | ⟨-, before⟩
      · cases no
      · change pool.globalDiagCheckerCount[slot']? = some 0
        rw [counts]
        exact diags.canceled d slot' r before
    change pool.globalDiagCheckerCount[slot']? = some count' at counted'
    rw [counts] at counted'
    obtain ⟨list, length, stands, within⟩ := diags.counted slot' count' counted'
    exact ⟨list, length, fun x member => by
      obtain ⟨a, there, standing⟩ := stands x member
      exact ⟨a, accumulated.symm ▸ there, standing⟩, within⟩
  | accumulated was counts accumulated =>
    subst was
    have union : Union ({ s with pool, present := s.present ++ s.checkers slot }.setCall c (.released slot none)) :=
      diags.union.accumulate accumulated rfl
    refine ⟨fun d slot' r released => ?_, fun slot' count' counted' => ?_, union⟩
    · rcases calls d slot' r released with ⟨-, no⟩ | ⟨other, before⟩
      · cases no
      · change pool.globalDiagCheckerCount[slot']? = some 0
        rw [counts, List.getElem?_set, if_neg other.symm]
        exact diags.canceled d slot' r before
    change pool.globalDiagCheckerCount[slot']? = some count' at counted'
    rw [counts, List.getElem?_set, if_pos inside] at counted'
    split at counted'
    · rename_i same
      subst same
      cases counted'
      exact ⟨s.checkers slot, rfl, fun x member => union.stands x (mem_append_right _ member), .refl _⟩
    obtain ⟨list, length, stands, within⟩ := diags.counted slot' count' counted'
    refine ⟨list, length, fun x member => ?_, within⟩
    obtain ⟨a, there, standing⟩ := stands x member
    obtain ⟨b, now, standing'⟩ := sortAndDeduplicate_stands _ a (mem_append_left (s.checkers slot) there)
    exact ⟨b, accumulated.symm ▸ now, standing'.trans standing⟩

end System

end TypeScriptRs.Project.CheckerPool
