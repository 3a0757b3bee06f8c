import TypeScriptRs.Lib.HashMap
import TypeScriptRs.Lib.Run
import TypeScriptRs.Lib.Machine

/-! The cache of counted entries, and the calls on it cut at the locks they take. -/
namespace TypeScriptRs.Project.RefCountCache
open Machine Interleaving

structure RefCountCacheOptions where
  disableDeletion : Bool
deriving DecidableEq

structure RefCountCacheEntry (V : Type) where
  value : V
  refCount : Int

/-- Where the call of a client stands. Entries are shared objects: a handle is the place of one. -/
inductive Call (K Args V : Type) where
  | idle
  | acquireFound (identity : K) (acquireArgs : Args) (existing : Nat)
  | acquireParse (identity : K) (acquireArgs : Args)
  /-- The lock of the table is held from here on. -/
  | acquireRelook (identity : K) (parsed : V) (existing : Nat)
  | refFound (identity : K) (entry : Nat)
  | refRevive (identity : K) (value : V)
  | derefFound (identity : K) (entry : Nat)
  | derefRemove (identity : K)

structure Reference (C K V : Type) where
  client : C
  identity : K
  value : V

structure State (C K Args V : Type) where
  entries : HashMap K Nat
  heap : List (RefCountCacheEntry V)
  /-- The client that keeps the lock of the table between two of its sections. -/
  locked : Option C
  calls : C → Call K Args V
  /-- The references that clients have got and not given back. -/
  references : List (Reference C K V)

inductive Action (C K Args : Type) where
  | acquire (client : C) (identity : K) (acquireArgs : Args)
  | ref (client : C) (identity : K)
  | deref (client : C) (identity : K)
  /-- The client's call runs its next critical section. -/
  | proceed (client : C)

variable {C K Args V : Type} [DecidableEq C] [DecidableEq K]

def newRefCountCache : State C K Args V := ⟨∅, [], none, fun _ => .idle, []⟩

namespace State

def entry (s : State C K Args V) (h : Nat) : Option (RefCountCacheEntry V) := s.heap[h]?

def setCall (s : State C K Args V) (c : C) (call : Call K Args V) : State C K Args V :=
  { s with calls := Function.update s.calls c call }

def grant (s : State C K Args V) (c : C) (identity : K) (value : V) : State C K Args V :=
  { s with references := ⟨c, identity, value⟩ :: s.references }

def drop (s : State C K Args V) (c : C) (identity : K) : State C K Args V :=
  { s with references := s.references.eraseP fun r => r.client = c ∧ r.identity = identity }

def holds (s : State C K Args V) (c : C) (identity : K) : Bool :=
  s.references.any fun r => r.client = c ∧ r.identity = identity

def setCount (s : State C K Args V) (h : Nat) (e : RefCountCacheEntry V) (count : Int) : State C K Args V :=
  { s with heap := s.heap.set h { e with refCount := i32 count } }

def insertEntry (s : State C K Args V) (identity : K) (value : V) : State C K Args V :=
  { s with
    heap := s.heap ++ [⟨value, 1⟩]
    entries := s.entries.insert identity s.heap.length }

def usable (options : RefCountCacheOptions) (e : RefCountCacheEntry V) : Bool :=
  0 < e.refCount || options.disableDeletion

variable (options : RefCountCacheOptions) (parse : K → Args → V)

def acquire (s : State C K Args V) (c : C) (identity : K) (args : Args) : State C K Args V :=
  match s.entries.lookup identity with
  | some existing => s.setCall c (.acquireFound identity args existing)
  | none => s.setCall c (.acquireParse identity args)

def reuse (s : State C K Args V) (c : C) (identity : K) (h : Nat) (e : RefCountCacheEntry V) : State C K Args V :=
  ((s.setCount h e (e.refCount + 1)).grant c identity e.value).setCall c .idle

def create (s : State C K Args V) (c : C) (identity : K) (value : V) : State C K Args V :=
  ((s.insertEntry identity value).grant c identity value).setCall c .idle

/-- The next critical section of a client's call, if it can take its lock. -/
def proceed (s : State C K Args V) (c : C) : Option (State C K Args V) :=
  match s.calls c with
  | .idle => none
  | .acquireFound identity args existing => do
    let e ← s.entry existing
    if usable options e then s.reuse c identity existing e else s.setCall c (.acquireParse identity args)
  | .acquireParse identity args =>
    if s.locked = none then
      match s.entries.lookup identity with
      | some existing => some { s.setCall c (.acquireRelook identity (parse identity args) existing) with
          locked := some c }
      | none => some (s.create c identity (parse identity args))
    else none
  | .acquireRelook identity parsed existing => do
    let e ← s.entry existing
    let s := { s with locked := none }
    if usable options e then s.reuse c identity existing e else s.create c identity parsed
  | .refFound identity h => do
    let e ← s.entry h
    if e.refCount ≤ 0 ∧ !options.disableDeletion then s.setCall c (.refRevive identity e.value)
    else s.reuse c identity h e
  | .refRevive identity value => if s.locked = none then some (s.create c identity value) else none
  | .derefFound identity h => do
    let e ← s.entry h
    let s := (s.setCount h e (e.refCount - 1)).drop c identity
    if i32 (e.refCount - 1) ≤ 0 ∧ !options.disableDeletion then s.setCall c (.derefRemove identity)
    else s.setCall c .idle
  | .derefRemove identity =>
    if s.locked = none then some ({ s with entries := s.entries.erase identity }.setCall c .idle) else none

/-- A `ref` of an identity without an entry panics, so it has no next state. -/
def step (s : State C K Args V) : Action C K Args → Option (State C K Args V)
  | .proceed c => s.proceed options parse c
  | .acquire c identity args =>
    match s.calls c with
    | .idle => if s.locked = none then some (s.acquire c identity args) else none
    | _ => none
  | .ref c identity =>
    match s.calls c with
    | .idle =>
      if s.locked = none then (s.entries.lookup identity).map fun h => s.setCall c (.refFound identity h) else none
    | _ => none
  | .deref c identity =>
    match s.calls c with
    | .idle =>
      if s.locked = none ∧ s.holds c identity then
        match s.entries.lookup identity with
        | some h => some (s.setCall c (.derefFound identity h))
        | none => some (s.drop c identity)
      else none
    | _ => none

def outstanding (s : State C K Args V) (identity : K) : Nat :=
  s.references.countP fun r => r.identity = identity

end State

end TypeScriptRs.Project.RefCountCache
