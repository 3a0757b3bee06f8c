import TypeScriptRs.Diagnostics.Diagnostic
import TypeScriptRs.Lib.HashMap
import TypeScriptRs.Lib.Run
import TypeScriptRs.Lib.Machine

/-! The pool of checkers of a project: requests acquire a slot and release it. -/
namespace TypeScriptRs.Project.CheckerPool
open Machine Diagnostics

variable {C F : Type} [DecidableEq C] [DecidableEq F]

def nestedActiveSlot : String := "nested checker acquisition for an active checker slot requires CheckerAccess::Active"
def sameRequestReentry : String := "same-request checker reentry requires active checker threading"
def nestedAllActive : String :=
  "nested checker acquisition while all checker slots are active requires CheckerAccess::Active"
def nestedRequestedActive : String :=
  "nested checker acquisition while the requested checker slot is active requires CheckerAccess::Active"
def slotInBounds : String := "checker slot index must be in bounds"
def associationMismatch : String := "request checker association does not match requested checker slot"
def releasedInBounds : String := "released checker slot index must be in bounds"
def withoutAcquire : String := "checker slot released without matching acquire"
def stackContains : String := "active checker stack must contain the current checker slot"
def stackCorrupted : String := "active checker stack corrupted by out-of-order checker release"
def indexOutOfBounds : String := "index out of bounds"

structure PoolState (F : Type) where
  activeSlots : List Bool
  fileAssociations : HashMap F Nat
  requestAssociations : HashMap String Nat
  globalDiagAccumulated : List Diagnostic
  globalDiagChanged : Bool
  globalDiagCheckerCount : List Nat

namespace PoolState

def new (maxCheckers : Nat) : PoolState F :=
  ⟨List.replicate maxCheckers false, ∅, ∅, [], false, List.replicate maxCheckers 0⟩

variable (state : PoolState F)

def isActive (slot : Nat) : Outcome Bool :=
  match state.activeSlots[slot]? with
  | some active => .ok active
  | none => .panic indexOutOfBounds

def assertNotReentrant (slots : List Nat) (slot : Nat) : Outcome Unit :=
  if slot ∈ slots then .panic nestedActiveSlot else .ok ()

def activate (slot : Nat) : PoolState F := { state with activeSlots := state.activeSlots.set slot true }

def associateRequest (requestId : String) (slot : Nat) : PoolState F :=
  if requestId = "" then state else { state with requestAssociations := state.requestAssociations.insert requestId slot }

def associateFile (fileKey : Option F) (slot : Nat) : PoolState F :=
  match fileKey with
  | none => state
  | some key => { state with fileAssociations := state.fileAssociations.insert key slot }

def associated (requestId : String) : Option Nat :=
  if requestId = "" then none else state.requestAssociations.lookup requestId

def slotOfFile (fileKey : Option F) : Outcome (Option Nat) :=
  match fileKey.bind state.fileAssociations.lookup with
  | none => .ok none
  | some slot => (state.isActive slot).bind fun active => .ok (if active then none else some slot)

/-- One turn of the loop: a slot, or none and the caller waits. -/
def acquireCheckerSlot (slots : List Nat) (fileKey : Option F) (requestId : String) : Outcome (Option Nat × PoolState F) :=
  match state.associated requestId with
  | some slot =>
    (state.isActive slot).bind fun active =>
      if active then .panic sameRequestReentry
      else (assertNotReentrant slots slot).bind fun _ => .ok (some slot, state.activate slot)
  | none =>
    (state.slotOfFile fileKey).bind fun found =>
      match found with
      | some slot =>
        (assertNotReentrant slots slot).bind fun _ => .ok (some slot, (state.activate slot).associateRequest requestId slot)
      | none =>
        match state.activeSlots.findIdx? (!·) with
        | some slot =>
          (assertNotReentrant slots slot).bind fun _ =>
            .ok (some slot, ((state.activate slot).associateFile fileKey slot).associateRequest requestId slot)
        | none => if slots = [] then .ok (none, state) else .panic nestedAllActive

def acquireCheckerSlotByIndex (slots : List Nat) (slot : Nat) (requestId : String) : Outcome (Option Nat × PoolState F) :=
  if slot ≥ state.activeSlots.length then .panic slotInBounds
  else match state.associated requestId with
    | some activeSlot =>
      if activeSlot ≠ slot then .panic associationMismatch
      else (state.isActive slot).bind fun active =>
        if active then .panic sameRequestReentry
        else (assertNotReentrant slots slot).bind fun _ => .ok (some slot, state.activate slot)
    | none =>
      (state.isActive slot).bind fun active =>
        if active then if slots = [] then .ok (none, state) else .panic nestedRequestedActive
        else (assertNotReentrant slots slot).bind fun _ => .ok (some slot, (state.activate slot).associateRequest requestId slot)

def dissociate (requestId : String) : PoolState F :=
  if requestId = "" then state else { state with requestAssociations := state.requestAssociations.erase requestId }

def deactivate (slot : Nat) : Outcome (PoolState F) :=
  match state.activeSlots[slot]? with
  | none => .panic releasedInBounds
  | some false => .panic withoutAcquire
  | some true => .ok { state with activeSlots := state.activeSlots.set slot false }

def countOf (slot : Nat) : Outcome Nat :=
  match state.globalDiagCheckerCount[slot]? with
  | some count => .ok count
  | none => .panic indexOutOfBounds

def setCount (slot count : Nat) : PoolState F :=
  { state with globalDiagCheckerCount := state.globalDiagCheckerCount.set slot count }

def accumulate (globals : List Diagnostic) : PoolState F :=
  let accumulated := sortAndDeduplicateDiagnostics (state.globalDiagAccumulated ++ globals)
  { state with
    globalDiagAccumulated := accumulated
    globalDiagChanged := state.globalDiagChanged || accumulated.length ≠ state.globalDiagAccumulated.length }

def releaseChecker (requestId : String) (slot : Nat) (canceled : Bool) (globals : List Diagnostic) : Outcome (PoolState F) :=
  let state := state.dissociate requestId
  (state.countOf slot).bind fun count =>
    if canceled then (state.setCount slot 0).deactivate slot
    else if globals.length = count then state.deactivate slot
    else ((state.setCount slot globals.length).accumulate globals).deactivate slot

def releaseCheckerSlotWithoutDiagnostics (requestId : String) (slot : Nat) : PoolState F :=
  let state := state.dissociate requestId
  { state with activeSlots := state.activeSlots.set slot false }

/-- `take_new_global_diagnostics` of a handle. -/
def takeNewGlobalDiagnostics : Bool × PoolState F :=
  (state.globalDiagChanged, { state with globalDiagChanged := false })

end PoolState

def newCheckerPool (maxCheckers : Nat) : PoolState F := .new (max maxCheckers 1)

inductive Wanted (F : Type) where
  | slot (file : Option F)
  | index (slot : Nat)

/-- Where the call of a request stands: it has acquired a slot, holds the lock of its checker, has released the slot,
or is unwinding after a panic of its callback. -/
inductive Call (F : Type) where
  | idle
  | acquiring (wanted : Wanted F)
  | acquired (slot : Nat)
  | running (slot : Nat)
  | released (slot : Nat) (replacement : Option (List Diagnostic))
  | unwinding (slot : Nat)

/-- The pool, the calls of the requests and their threads' active slots, and the checkers with their locks and global
diagnostics. `present` are the diagnostics of all releases so far, those of canceled checkers left out. -/
structure System (C F : Type) where
  pool : PoolState F
  calls : C → Call F
  activePoolSlots : C → List Nat
  locks : Nat → Option C
  checkers : Nat → List Diagnostic
  present : List Diagnostic

inductive Action (C F : Type) where
  | start (c : C) (wanted : Wanted F)
  | attempt (c : C)
  | lock (c : C)
  | check (c : C) (globals : List Diagnostic)
  | release (c : C) (canceled : Bool) (replacement : List Diagnostic)
  | finish (c : C)
  | unwind (c : C)
  | drop (c : C)
  | takeNewGlobalDiagnostics

namespace System

def initial (maxCheckers : Nat) (checkers : Nat → List Diagnostic) : System C F :=
  ⟨newCheckerPool maxCheckers, fun _ => .idle, fun _ => [], fun _ => none, checkers, []⟩

variable (requestId : C → String) (s : System C F)

def setCall (c : C) (call : Call F) : System C F := { s with calls := Function.update s.calls c call }

def attempt (c : C) (wanted : Wanted F) : Outcome (System C F) :=
  let turn := match wanted with
    | .slot file => s.pool.acquireCheckerSlot (s.activePoolSlots c) file (requestId c)
    | .index slot => s.pool.acquireCheckerSlotByIndex (s.activePoolSlots c) slot (requestId c)
  turn.bind fun result =>
    match result.1 with
    | some slot => .ok ({ s with pool := result.2 }.setCall c (.acquired slot))
    | none => .ok s

def popStack (c : C) (slot : Nat) : Outcome (System C F) :=
  match s.activePoolSlots c with
  | [] => .panic stackContains
  | top :: rest => if top = slot then .ok { s with activePoolSlots := Function.update s.activePoolSlots c rest } else .panic stackCorrupted

def unlock (slot : Nat) : System C F := { s with locks := Function.update s.locks slot none }

def step : Action C F → Option (Outcome (System C F))
  | .start c wanted =>
    match s.calls c with
    | .idle => some (.ok (s.setCall c (.acquiring wanted)))
    | _ => none
  | .attempt c =>
    match s.calls c with
    | .acquiring wanted => some (s.attempt requestId c wanted)
    | _ => none
  | .lock c =>
    match s.calls c with
    | .acquired slot =>
      if s.locks slot = none then
        some (.ok ({ s with
          locks := Function.update s.locks slot (some c)
          activePoolSlots := Function.update s.activePoolSlots c (slot :: s.activePoolSlots c) }.setCall c (.running slot)))
      else none
    | _ => none
  | .check c globals =>
    match s.calls c with
    | .running slot => some (.ok { s with checkers := Function.update s.checkers slot globals })
    | _ => none
  | .release c canceled replacement =>
    match s.calls c with
    | .running slot =>
      let globals := s.checkers slot
      some ((s.pool.releaseChecker (requestId c) slot canceled globals).bind fun pool =>
        .ok ({ s with pool, present := if canceled then s.present else s.present ++ globals }.setCall c
          (.released slot (if canceled then some replacement else none))))
    | _ => none
  | .finish c =>
    match s.calls c with
    | .released slot replacement =>
      some ((s.popStack c slot).bind fun s =>
        .ok (({ s with checkers := Function.update s.checkers slot (replacement.getD (s.checkers slot)) }.unlock slot).setCall c .idle))
    | _ => none
  | .unwind c =>
    match s.calls c with
    | .running slot => some ((s.popStack c slot).bind fun s => .ok ((s.unlock slot).setCall c (.unwinding slot)))
    | _ => none
  | .drop c =>
    match s.calls c with
    | .unwinding slot =>
      some (.ok ({ s with pool := s.pool.releaseCheckerSlotWithoutDiagnostics (requestId c) slot }.setCall c .idle))
    | _ => none
  | .takeNewGlobalDiagnostics => some (.ok { s with pool := s.pool.takeNewGlobalDiagnostics.2 })

def next (a : Action C F) : Option (System C F) :=
  match s.step requestId a with
  | some (.ok s') => some s'
  | _ => none

end System

end TypeScriptRs.Project.CheckerPool
