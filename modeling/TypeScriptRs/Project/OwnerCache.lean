import TypeScriptRs.Lib.HashMap
import TypeScriptRs.Lib.Run

/-! The cache of owned entries. As in the counted cache, a call is cut at the locks it takes. -/
namespace TypeScriptRs.Project.OwnerCache
open Interleaving

structure OwnerCacheEntry (O V : Type) where
  value : V
  owners : Finset O

/-- What a call that becomes an owner does with the value of the entry. -/
inductive Request (K V LoadArgs : Type) where
  | loadAndAcquire (loadArgs : LoadArgs) (parse : K → LoadArgs → V)
  | acquire (value : V)

/-- Where a call stands. Entries are shared objects: a handle is the place of one. -/
inductive Call (K O V LoadArgs : Type) where
  | idle
  | load (identity : K) (owner : O) (request : Request K V LoadArgs)
  | loadFound (identity : K) (owner : O) (request : Request K V LoadArgs) (existing : Nat)
  | fill (identity : K) (owner : O) (request : Request K V LoadArgs) (entry : Nat) (loaded : Bool)
  | addOwnerFound (identity : K) (owner : O) (entry : Nat)
  | releaseFound (identity : K) (owner : O) (entry : Nat)
  | releaseRemove (identity : K)

structure Ownership (K O V : Type) where
  identity : K
  owner : O
  value : V

structure State (C K O V LoadArgs : Type) where
  entries : HashMap K Nat
  heap : List (OwnerCacheEntry O V)
  calls : C → Call K O V LoadArgs
  /-- The current owners: those that were added and have not been taken out again. -/
  held : List (Ownership K O V)
  /-- The releases that have not taken their owner out yet: an owner gives an entry back once. -/
  releasing : List (K × O)

inductive Action (C K O V LoadArgs : Type) where
  | load (client : C) (identity : K) (owner : O) (request : Request K V LoadArgs)
  | addOwner (client : C) (identity : K) (owner : O)
  | release (client : C) (identity : K) (owner : O)
  /-- The client's call runs its next critical section. -/
  | proceed (client : C)

variable {C K O V LoadArgs : Type} [DecidableEq C] [DecidableEq K] [DecidableEq O]

def newOwnerCache : State C K O V LoadArgs := ⟨∅, [], fun _ => .idle, [], []⟩

namespace State

def entry (s : State C K O V LoadArgs) (h : Nat) : Option (OwnerCacheEntry O V) := s.heap[h]?

def setCall (s : State C K O V LoadArgs) (c : C) (call : Call K O V LoadArgs) : State C K O V LoadArgs :=
  { s with calls := Function.update s.calls c call }

def setEntry (s : State C K O V LoadArgs) (h : Nat) (e : OwnerCacheEntry O V) : State C K O V LoadArgs :=
  { s with heap := s.heap.set h e }

def insertEntry [Inhabited V] (s : State C K O V LoadArgs) (identity : K) : State C K O V LoadArgs :=
  { s with
    heap := s.heap ++ [⟨default, ∅⟩]
    entries := s.entries.insert identity s.heap.length }

def grant (s : State C K O V LoadArgs) (identity : K) (owner : O) (value : V) : State C K O V LoadArgs :=
  { s with held := ⟨identity, owner, value⟩ :: s.held }

def owns (s : State C K O V LoadArgs) (identity : K) (owner : O) : Bool :=
  s.held.any fun r => r.identity = identity ∧ r.owner = owner

def giveBack (s : State C K O V LoadArgs) (identity : K) (owner : O) : State C K O V LoadArgs :=
  { s with
    held := s.held.filter fun r => ¬(r.identity = identity ∧ r.owner = owner)
    releasing := s.releasing.filter fun r => r ≠ (identity, owner) }

/-- The owners that a key has by what has been granted and given back. -/
def currentOwners (s : State C K O V LoadArgs) (identity : K) : Finset O :=
  ((s.held.filter fun r => r.identity = identity).map Ownership.owner).toFinset

variable (isExpired : Option (K → V → LoadArgs → Bool)) [Inhabited V]

def expired (identity : K) (value : V) (loadArgs : LoadArgs) : Bool :=
  isExpired.any fun isExpired => isExpired identity value loadArgs

/-- The value an entry has after the section that adds an owner. -/
def filled (identity : K) (request : Request K V LoadArgs) (loaded : Bool) (e : OwnerCacheEntry O V) : V :=
  match request with
  | .loadAndAcquire loadArgs parse =>
    if !loaded || expired isExpired identity e.value loadArgs then parse identity loadArgs else e.value
  | .acquire value => if !loaded then value else e.value

def addTo (s : State C K O V LoadArgs) (c : C) (identity : K) (owner : O) (h : Nat) (e : OwnerCacheEntry O V)
    (value : V) : State C K O V LoadArgs :=
  ((s.setEntry h ⟨value, insert owner e.owners⟩).grant identity owner value).setCall c .idle

/-- The next critical section of a client's call. An `addOwner` to an entry without owners panics, so it has none. -/
def proceed (s : State C K O V LoadArgs) (c : C) : Option (State C K O V LoadArgs) :=
  match s.calls c with
  | .idle => none
  | .load identity owner request =>
    match s.entries.lookup identity with
    | some existing => some (s.setCall c (.loadFound identity owner request existing))
    | none =>
      some ((s.insertEntry identity).setCall c (.fill identity owner request s.heap.length false))
  | .loadFound identity owner request existing => do
    let e ← s.entry existing
    if e.owners = ∅ then s.setCall c (.load identity owner request)
    else s.setCall c (.fill identity owner request existing true)
  | .fill identity owner request h loaded => do
    let e ← s.entry h
    return s.addTo c identity owner h e (filled isExpired identity request loaded e)
  | .addOwnerFound identity owner h => do
    let e ← s.entry h
    if e.owners = ∅ then none else s.addTo c identity owner h e e.value
  | .releaseFound identity owner h => do
    let e ← s.entry h
    let s := (s.setEntry h { e with owners := e.owners.erase owner }).giveBack identity owner
    if e.owners.erase owner = ∅ then s.setCall c (.releaseRemove identity) else s.setCall c .idle
  | .releaseRemove identity => some (setCall { s with entries := s.entries.erase identity } c .idle)

/-- The start of a call. One that only reads the table after it starts does so in its first section; an `addOwner`
of an identity without an entry panics, so it has no next state. -/
def step (s : State C K O V LoadArgs) : Action C K O V LoadArgs → Option (State C K O V LoadArgs)
  | .proceed c => s.proceed isExpired c
  | .load c identity owner request =>
    match s.calls c with
    | .idle => some (s.setCall c (.load identity owner request))
    | _ => none
  | .addOwner c identity owner =>
    match s.calls c with
    | .idle => (s.entries.lookup identity).map fun h => s.setCall c (.addOwnerFound identity owner h)
    | _ => none
  | .release c identity owner =>
    match s.calls c with
    | .idle =>
      if s.owns identity owner ∧ (identity, owner) ∉ s.releasing then
        match s.entries.lookup identity with
        | some h =>
          some (setCall { s with releasing := (identity, owner) :: s.releasing } c (.releaseFound identity owner h))
        | none => some (s.giveBack identity owner)
      else none
    | _ => none

end State

end TypeScriptRs.Project.OwnerCache
