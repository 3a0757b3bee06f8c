import TypeScriptRs.Project.CheckerSlots

/-! What holds of the pool of checkers in every run of its requests. -/
namespace TypeScriptRs.Project.CheckerPool
open Machine Diagnostics Interleaving List

variable {C F : Type} [DecidableEq C] [DecidableEq F] {requestId : C → String}

namespace System

variable {s s' : System C F} {c : C} {slot : Nat}

section
def Grows (s : System C F) : Action C F → Prop
  | .check c globals => ∀ slot, s.calls c = .running slot → (s.checkers slot).Subperm globals
  | _ => True

/-- A step is not enabled, panics only at a slot that the pool does not have, or leads to a sound system. -/
def Stays (requestId : C → String) (result : Option (Outcome (System C F))) : Prop :=
  ∀ outcome, result = some outcome → outcome = .panic slotInBounds ∨ ∃ s', outcome = .ok s' ∧ Sound requestId s'

omit [DecidableEq C] in
theorem Stays.none : Stays requestId (.none : Option (Outcome (System C F))) := fun outcome none_ => by cases none_

omit [DecidableEq C] in
theorem Stays.ok (sound : Sound requestId s) : Stays requestId (some (.ok s)) := fun outcome same => by
  cases same
  exact .inr ⟨s, rfl, sound⟩

omit [DecidableEq F] in
theorem calls_setCall (s : System C F) (c d : C) (call : Call F) :
    (s.setCall c call).calls d = if d = c then call else s.calls d := Function.update_apply s.calls c call d

theorem Sound.setCall (sound : Sound requestId s) {call : Call F} (held : holding call = holding (s.calls c))
    (locked : locking call = locking (s.calls c)) (kept : ∀ slot r, call ≠ .released slot (some r)) :
    Sound requestId (s.setCall c call) where
  slots := sound.slots.frame rfl fun d => by
    rw [calls_setCall]
    split
    · rename_i same
      rw [held, same]
    · rfl
  threads := sound.threads.frame rfl rfl fun d => by
    rw [calls_setCall]
    split
    · rename_i same
      rw [locked, same]
    · rfl
  diags := sound.diags.frame rfl rfl rfl (fun slot count _ => .inl (.refl _)) fun d slot r released => by
    rw [calls_setCall] at released
    split at released
    · exact absurd released (kept slot r)
    · exact released

theorem Sound.diags_kept (sound : Sound requestId s) (counts : s'.pool.globalDiagCheckerCount = s.pool.globalDiagCheckerCount)
    (accumulated : s'.pool.globalDiagAccumulated = s.pool.globalDiagAccumulated) (present : s'.present = s.present)
    (checkers : s'.checkers = s.checkers) {call : Call F} (calls : ∀ d, s'.calls d = if d = c then call else s.calls d)
    (kept : ∀ slot r, call ≠ .released slot (some r)) : Diags s' :=
  sound.diags.frame counts accumulated present (fun slot count _ => .inl (checkers ▸ .refl _)) fun d slot r released => by
    rw [calls] at released
    split at released
    · exact absurd released (kept slot r)
    · exact released

theorem start_stays (sound : Sound requestId s) (c : C) (wanted : Wanted F) : Stays requestId (s.step requestId (.start c wanted)) := by
  unfold step
  dsimp only
  split
  · rename_i idle
    exact .ok (sound.setCall (by rw [idle]; rfl) (by rw [idle]; rfl) fun slot r no => by cases no)
  · exact .none

theorem attempt_stays (distinct : ∀ p q, requestId p = requestId q → requestId p ≠ "" → p = q) (sound : Sound requestId s) (c : C) :
    Stays requestId (s.step requestId (.attempt c)) := by
  unfold step
  dsimp only
  split
  · rename_i wanted acquiring
    have empty : holding (s.calls c) = .none := by rw [acquiring]; rfl
    have unlocked : locking (s.calls c) = .none := by rw [acquiring]; rfl
    have stack : s.activePoolSlots c = [] := by rw [sound.threads.threads c, unlocked]; rfl
    have fresh := sound.slots.fresh distinct empty
    have turn {slot : Nat} {pool : PoolState F} (acquired : PoolState.Acquired s.pool pool (requestId c) slot) :
        Stays requestId (some (.ok ({ s with pool := pool }.setCall c (.acquired slot)))) := by
      refine .ok ⟨sound.slots.acquire empty acquired, ?_, ?_⟩
      · refine sound.threads.frame rfl rfl fun d => ?_
        rw [locking_setCall]
        split
        · rename_i same
          rw [same, unlocked]
          rfl
        · rfl
      · exact sound.diags_kept acquired.counts acquired.accumulated rfl rfl (fun d => calls_setCall _ c d _) fun slot r no => by cases no
    unfold attempt
    rw [stack]
    cases wanted with
    | slot file =>
      obtain ⟨result, taken, done⟩ := PoolState.acquireCheckerSlot_turn sound.slots.files file fresh
      dsimp only
      rw [taken]
      rcases done with rfl | ⟨slot, pool, rfl, acquired⟩
      · exact .ok sound
      · exact turn acquired
    | index slot =>
      dsimp only
      rcases PoolState.acquireCheckerSlotByIndex_turn slot fresh with outside | ⟨result, taken, done⟩
      · rw [outside]
        intro outcome same
        cases same
        exact .inl rfl
      · rw [taken]
        rcases done with rfl | ⟨slot, pool, rfl, acquired⟩
        · exact .ok sound
        · exact turn acquired
  · exact .none

theorem lock_stays (sound : Sound requestId s) (c : C) : Stays requestId (s.step requestId (.lock c)) := by
  unfold step
  dsimp only
  split
  · rename_i slot acquired
    split
    · rename_i free
      refine .ok ⟨sound.slots.frame rfl fun d => ?_, sound.threads.lock free (by rw [acquired]; rfl) rfl, ?_⟩
      · rw [calls_setCall]
        split
        · rename_i same
          rw [same, acquired]
          rfl
        · rfl
      · exact sound.diags_kept rfl rfl rfl rfl (fun d => calls_setCall _ c d _) fun slot r no => by cases no
    · exact .none
  · exact .none

theorem check_stays (sound : Sound requestId s) (c : C) (globals : List Diagnostic) (grows : s.Grows (.check c globals)) :
    Stays requestId (s.step requestId (.check c globals)) := by
  unfold step
  dsimp only
  split
  · rename_i slot running
    refine .ok ⟨sound.slots.frame rfl fun d => rfl, sound.threads.frame rfl rfl fun d => rfl, ?_⟩
    refine sound.diags.frame rfl rfl rfl (fun slot' count _ => .inl ?_) fun d slot r released => released
    change (s.checkers slot').Subperm (Function.update s.checkers slot globals slot')
    rw [Function.update_apply]
    split
    · rename_i same
      exact same ▸ grows slot running
    · exact .refl _
  · exact .none

theorem release_stays (sound : Sound requestId s) (c : C) (canceled : Bool) (replacement : List Diagnostic) :
    Stays requestId (s.step requestId (.release c canceled replacement)) := by
  unfold step
  dsimp only
  split
  · rename_i slot running
    have held : s.Holds c slot := by rw [Holds, running]; rfl
    have active := (sound.slots.active slot).mpr ⟨c, held⟩
    have inside : slot < s.pool.globalDiagCheckerCount.length := by
      rw [sound.slots.counts]
      exact (List.getElem?_eq_some_iff.mp active).1
    have counted := List.getElem?_eq_getElem inside
    obtain ⟨pool, done, released, recorded⟩ :=
      PoolState.releaseChecker_spec active counted canceled (s.checkers slot)
    rw [done]
    refine .ok ⟨sound.slots.release held released ?_ rfl, ?_, sound.diags.release sound.threads running counted recorded⟩
    · cases recorded with
      | canceled was counts accumulated => rw [counts, length_set]
      | unchanged was same counts accumulated => rw [counts]
      | accumulated was counts accumulated => rw [counts, length_set]
    refine sound.threads.frame rfl rfl fun d => ?_
    rw [locking_setCall]
    split
    · rename_i same
      rw [same, running]
      rfl
    · rfl
  · exact .none

theorem finish_stays (sound : Sound requestId s) (c : C) : Stays requestId (s.step requestId (.finish c)) := by
  unfold step
  dsimp only
  split
  · rename_i slot replacement released
    have locked : locking (s.calls c) = some slot := by rw [released]; rfl
    rw [sound.threads.popStack_eq locked]
    refine .ok ⟨sound.slots.frame rfl fun d => ?_, sound.threads.unlock locked rfl, ?_⟩
    · rw [calls_setCall]
      split
      · rename_i same
        rw [same, released]
        rfl
      · rfl
    refine sound.diags.frame rfl rfl rfl (fun slot' count counted => ?_) fun d slot' r released' => ?_
    · change (s.checkers slot').Subperm (Function.update s.checkers slot (replacement.getD (s.checkers slot)) slot') ∨ _
      rw [Function.update_apply]
      split
      · rename_i same
        subst same
        cases replacement with
        | none => exact .inl (.refl _)
        | some r =>
          rw [sound.diags.canceled c slot' r released] at counted
          exact .inr (Option.some.inj counted).symm
      · exact .inl (.refl _)
    · rw [calls_setCall] at released'
      split at released'
      · cases released'
      · exact released'
  · exact .none

theorem unwind_stays (sound : Sound requestId s) (c : C) : Stays requestId (s.step requestId (.unwind c)) := by
  unfold step
  dsimp only
  split
  · rename_i slot running
    have locked : locking (s.calls c) = some slot := by rw [running]; rfl
    rw [sound.threads.popStack_eq locked]
    refine .ok ⟨sound.slots.frame rfl fun d => ?_, sound.threads.unlock locked rfl, ?_⟩
    · rw [calls_setCall]
      split
      · rename_i same
        rw [same, running]
        rfl
      · rfl
    · exact sound.diags_kept rfl rfl rfl rfl (fun d => calls_setCall _ c d _) fun slot r no => by cases no
  · exact .none

theorem drop_stays (sound : Sound requestId s) (c : C) : Stays requestId (s.step requestId (.drop c)) := by
  unfold step
  dsimp only
  split
  · rename_i slot unwinding
    have held : s.Holds c slot := by rw [Holds, unwinding]; rfl
    obtain ⟨-, -, counts, accumulated⟩ := s.pool.dissociate_rest (requestId c)
    refine .ok ⟨?_, sound.threads.frame rfl rfl fun d => ?_, ?_⟩
    · exact sound.slots.release held (s.pool.releaseCheckerSlotWithoutDiagnostics_released (requestId c) slot)
        (congrArg List.length counts) rfl
    · rw [locking_setCall]
      split
      · rename_i same
        rw [same, unwinding]
        rfl
      · rfl
    · exact sound.diags_kept counts accumulated rfl rfl (fun d => calls_setCall _ c d _) fun slot r no => by cases no
  · exact .none

theorem takeNewGlobalDiagnostics_stays (sound : Sound requestId s) :
    Stays requestId (s.step requestId .takeNewGlobalDiagnostics) := by
  refine .ok ⟨?_, sound.threads.frame rfl rfl fun d => rfl, ?_⟩
  · exact ⟨sound.slots.counts, sound.slots.active, sound.slots.unique, sound.slots.associations, sound.slots.files⟩
  · exact sound.diags.frame rfl rfl rfl (fun slot count _ => .inl (.refl _)) fun d slot r released => released

theorem step_stays (distinct : ∀ p q, requestId p = requestId q → requestId p ≠ "" → p = q) (sound : Sound requestId s)
    (a : Action C F) (grows : s.Grows a) : Stays requestId (s.step requestId a) := by
  cases a with
  | start c wanted => exact start_stays sound c wanted
  | attempt c => exact attempt_stays distinct sound c
  | lock c => exact lock_stays sound c
  | check c globals => exact check_stays sound c globals grows
  | release c canceled replacement => exact release_stays sound c canceled replacement
  | finish c => exact finish_stays sound c
  | unwind c => exact unwind_stays sound c
  | drop c => exact drop_stays sound c
  | takeNewGlobalDiagnostics => exact takeNewGlobalDiagnostics_stays sound
end

variable {a : Action C F}

theorem next_eq : s.next requestId a = some s' ↔ s.step requestId a = some (.ok s') := by
  unfold next
  split
  · rename_i here result
    rw [result]
    simp
  · rename_i other
    exact ⟨fun none_ => (by cases none_), fun taken => absurd taken (other s')⟩

theorem next_sound (distinct : ∀ p q, requestId p = requestId q → requestId p ≠ "" → p = q) (sound : Sound requestId s)
    (grows : s.Grows a) (taken : s.next requestId a = some s') : Sound requestId s' := by
  rcases step_stays distinct sound a grows _ (next_eq.mp taken) with panics | ⟨after, same, sound'⟩
  · cases panics
  · cases same
    exact sound'

/-- The diagnostics of a release agree with each other, and with those of earlier releases, in how they compare. -/
def Agreeing (s : System C F) : Action C F → Prop
  | .release c false replacement =>
    s.Grows (.release c false replacement) ∧ ∀ slot, s.calls c = .running slot → Consistent (s.present ++ s.checkers slot)
  | a => s.Grows a

omit [DecidableEq C] [DecidableEq F] in
theorem Agreeing.grows (agreeing : s.Agreeing a) : s.Grows a := by
  cases a with
  | release c canceled replacement => trivial
  | _ => exact agreeing

omit [DecidableEq F] in
theorem popStack_present (done : s.popStack c slot = .ok s') : s'.present = s.present := by
  unfold popStack at done
  split at done
  · cases done
  · split at done
    · cases done
      rfl
    · cases done

theorem attempt_present {wanted : Wanted F} (done : s.attempt requestId c wanted = .ok s') : s'.present = s.present := by
  obtain ⟨result, -, rest⟩ := Outcome.bind_eq_ok done
  split at rest
  · cases rest
    rfl
  · cases rest
    rfl

theorem step_present (taken : s.step requestId a = some (.ok s')) : s'.present = s.present ∨
    ∃ c replacement slot, a = .release c false replacement ∧ s.calls c = .running slot ∧ s'.present = s.present ++ s.checkers slot := by
  cases a with
  | start c wanted =>
    unfold step at taken
    dsimp only at taken
    split at taken
    · cases taken
      exact .inl rfl
    · cases taken
  | attempt c =>
    unfold step at taken
    dsimp only at taken
    split at taken
    · exact .inl (attempt_present (Option.some.inj taken))
    · cases taken
  | lock c =>
    unfold step at taken
    dsimp only at taken
    split at taken
    · split at taken
      · cases taken
        exact .inl rfl
      · cases taken
    · cases taken
  | check c globals =>
    unfold step at taken
    dsimp only at taken
    split at taken
    · cases taken
      exact .inl rfl
    · cases taken
  | release c canceled replacement =>
    unfold step at taken
    dsimp only at taken
    split at taken
    · rename_i slot running
      obtain ⟨pool, -, rest⟩ := Outcome.bind_eq_ok (Option.some.inj taken)
      cases rest
      cases canceled with
      | true => exact .inl rfl
      | false => exact .inr ⟨c, replacement, slot, rfl, running, rfl⟩
    · cases taken
  | finish c =>
    unfold step at taken
    dsimp only at taken
    split at taken
    · obtain ⟨after, popped, rest⟩ := Outcome.bind_eq_ok (Option.some.inj taken)
      cases rest
      exact .inl (show after.present = s.present from popStack_present popped)
    · cases taken
  | unwind c =>
    unfold step at taken
    dsimp only at taken
    split at taken
    · obtain ⟨after, popped, rest⟩ := Outcome.bind_eq_ok (Option.some.inj taken)
      cases rest
      exact .inl (show after.present = s.present from popStack_present popped)
    · cases taken
  | drop c =>
    unfold step at taken
    dsimp only at taken
    split at taken
    · cases taken
      exact .inl rfl
    · cases taken
  | takeNewGlobalDiagnostics =>
    cases taken
    exact .inl rfl

theorem reaches_consistent {maxCheckers : Nat} {checkers : Nat → List Diagnostic}
    (run : Reaches (next requestId) Agreeing (initial maxCheckers checkers : System C F) s) : Consistent s.present := by
  refine run.keeps (fun s => Consistent s.present) (fun x member => absurd member not_mem_nil) fun s a s' now agreeing taken => ?_
  rcases step_present (next_eq.mp taken) with same | ⟨c, replacement, slot, rfl, running, added⟩
  · exact same ▸ now
  · exact added ▸ agreeing.2 slot running

/-- The globals of all releases are accumulated, and nothing else, each once. -/
structure DeduplicatedUnion (s : System C F) : Prop where
  stands : ∀ x ∈ s.present, ∃ a ∈ s.pool.globalDiagAccumulated, StandsFor a x
  comesFrom : ∀ a ∈ s.pool.globalDiagAccumulated, ComesFrom s.present a
  distinct : s.pool.globalDiagAccumulated.Pairwise fun a b => equalDiagnosticsNoRelatedInfo a b = false

/-- In every run of requests whose global diagnostics agree, a slot has one holder, an association names a slot that its
request holds, no release or acquisition panics, but for a slot that the pool does not have, and the diagnostics
accumulated are those of the releases. -/
theorem checkers_not_shared (distinct : ∀ p q, requestId p = requestId q → requestId p ≠ "" → p = q) (maxCheckers : Nat)
    (checkers : Nat → List Diagnostic) (s : System C F)
    (run : Reaches (next requestId) Agreeing (initial maxCheckers checkers : System C F) s) :
    (∀ c d slot, s.Holds c slot → s.Holds d slot → c = d) ∧
    (∀ id slot, s.pool.requestAssociations.lookup id = some slot →
      s.pool.activeSlots[slot]? = some true ∧ ∃ c, requestId c = id ∧ s.Holds c slot) ∧
    (∀ a message, s.Agreeing a → s.step requestId a = some (.panic message) → message = slotInBounds) ∧
    s.DeduplicatedUnion := by
  have sound : Sound requestId s := run.keeps (Sound requestId) (initial_sound requestId maxCheckers checkers)
    fun _ _ _ sound agreeing taken => next_sound distinct sound agreeing.grows taken
  refine ⟨sound.slots.unique, fun id slot found => ?_, fun a message agreeing panics => ?_, ?_⟩
  · obtain ⟨-, c, same, held⟩ := sound.slots.associations id slot found
    exact ⟨(sound.slots.active slot).mpr ⟨c, held⟩, c, same, held⟩
  · rcases step_stays distinct sound a agreeing.grows _ panics with same | ⟨after, same, -⟩
    · cases same
      rfl
    · cases same
  · exact ⟨sound.diags.union.stands, sound.diags.union.comesFrom, sound.diags.union.distinct (reaches_consistent run)⟩

def unlocated (code : Int) (chain : List Diagnostic) : Diagnostic := .mk none 0 0 code [] chain [] none none

/-- A request acquires a checker, which then has the globals, and releases it. -/
def round (globals : List Diagnostic) : List (Action Unit Nat) :=
  [.start () (.slot none), .attempt (), .lock (), .check () globals, .release () false [], .finish ()]

theorem checkers_not_shared_round : ∃ s : System Unit Nat, s.present = [unlocated 1 []] ∧ s.DeduplicatedUnion := by
  obtain ⟨s, taken, present⟩ : ∃ s, steps (next fun _ => "1") (initial 1 fun _ => []) (round [unlocated 1 []]) = some s ∧
      s.present = [unlocated 1 []] := ⟨_, rfl, rfl⟩
  have allowed : Allowed (next fun _ => "1") Agreeing (initial 1 fun _ => []) (round [unlocated 1 []]) := by
    refine ⟨trivial, fun _ first => ?_⟩
    obtain rfl := Option.some.inj first
    refine ⟨trivial, fun _ second => ?_⟩
    obtain rfl := Option.some.inj second
    refine ⟨trivial, fun _ third => ?_⟩
    obtain rfl := Option.some.inj third
    refine ⟨fun slot running => ?_, fun _ fourth => ?_⟩
    · exact nil_subperm
    obtain rfl := Option.some.inj fourth
    refine ⟨⟨trivial, fun slot running => ?_⟩, fun _ fifth => ⟨trivial, fun _ _ => trivial⟩⟩
    cases running
    exact consistent_singleton (unlocated 1 [])
  exact ⟨s, present, (checkers_not_shared (fun _ _ _ _ => rfl) 1 (fun _ => []) s (reaches_of_allowed allowed taken)).2.2.2⟩

/-- Diagnostics whose chains differ only in codes compare alike, so that sorting does not bring together those that are
equal. -/
theorem duplicates_accumulated : ∃ s : System Unit Nat,
    Reaches (next fun _ => "1") Grows (initial 1 fun _ => []) s ∧
    ¬ s.pool.globalDiagAccumulated.Pairwise fun a b => equalDiagnosticsNoRelatedInfo a b = false := by
  let a := unlocated 1 [unlocated 10 []]
  let b := unlocated 1 [unlocated 11 []]
  obtain ⟨s, taken, accumulated⟩ : ∃ s, steps (next fun _ => "1") (initial 1 fun _ => [])
      (round [a, b] ++ round [a, b, unlocated 2 []]) = some s ∧
      s.pool.globalDiagAccumulated = [a, b, a, b, unlocated 2 []] := ⟨_, rfl, rfl⟩
  have allowed : Allowed (next fun _ => "1") Grows (initial 1 fun _ => []) (round [a, b] ++ round [a, b, unlocated 2 []]) := by
    refine ⟨trivial, fun _ first => ?_⟩
    obtain rfl := Option.some.inj first
    refine ⟨trivial, fun _ second => ?_⟩
    obtain rfl := Option.some.inj second
    refine ⟨trivial, fun _ third => ?_⟩
    obtain rfl := Option.some.inj third
    refine ⟨fun slot running => nil_subperm, fun _ fourth => ?_⟩
    obtain rfl := Option.some.inj fourth
    refine ⟨trivial, fun _ fifth => ?_⟩
    obtain rfl := Option.some.inj fifth
    refine ⟨trivial, fun _ sixth => ?_⟩
    obtain rfl := Option.some.inj sixth
    refine ⟨trivial, fun _ first => ?_⟩
    obtain rfl := Option.some.inj first
    refine ⟨trivial, fun _ second => ?_⟩
    obtain rfl := Option.some.inj second
    refine ⟨trivial, fun _ third => ?_⟩
    obtain rfl := Option.some.inj third
    refine ⟨fun slot running => ?_, fun _ fourth => ⟨trivial, fun _ _ => ⟨trivial, fun _ _ => trivial⟩⟩⟩
    cases running
    exact (sublist_append_left [a, b] [unlocated 2 []]).subperm
  refine ⟨s, reaches_of_allowed allowed taken, ?_⟩
  rw [accumulated]
  intro distinct
  have again : a ∈ [b, a, b, unlocated 2 []] := by simp
  have no := rel_of_pairwise_cons distinct again
  cases no

end System

end TypeScriptRs.Project.CheckerPool
