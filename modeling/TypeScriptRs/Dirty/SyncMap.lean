import TypeScriptRs.Lib.HashMap

/-! A map with an overlay of dirty entries. A handle is the address of an entry. -/
namespace TypeScriptRs.Dirty

variable {K V : Type} [DecidableEq K] [Inhabited V]

structure MapEntry (K V : Type) where
  key : K
  original : V
  value : V
  dirty : Bool
  delete : Bool

structure SyncMapEntry (K V : Type) where
  mapEntry : MapEntry K V
  /-- Set when this entry lost the race to become the dirty entry of its key. -/
  proxyFor : Option Nat

structure SyncMap (K V : Type) where
  base : HashMap K V
  dirty : HashMap K Nat
  entries : List (SyncMapEntry K V)

def newSyncMap (base : HashMap K V) : SyncMap K V := ⟨base, ∅, []⟩

namespace SyncMap

def entry (s : SyncMap K V) (h : Nat) : Option (SyncMapEntry K V) := s.entries[h]?

def setEntry (s : SyncMap K V) (h : Nat) (e : SyncMapEntry K V) : SyncMap K V :=
  { s with entries := s.entries.set h e }

def newSyncMapEntryArc (s : SyncMap K V) (e : MapEntry K V) : Nat × SyncMap K V :=
  (s.entries.length, { s with entries := s.entries ++ [⟨e, none⟩] })

def store (s : SyncMap K V) (key : K) (h : Nat) : SyncMap K V :=
  { s with dirty := s.dirty.insert key h }

/-- `load_or_store` of the table of dirty entries. -/
def dirtyLoadOrStore (s : SyncMap K V) (key : K) (h : Nat) : Nat × SyncMap K V :=
  match s.dirty.lookup key with
  | some actual => (actual, s)
  | none => (h, s.store key h)

/-- Every method of an entry first passes the call on to the entry it stands for;
a chain of proxies has no more links than there are entries. -/
def route (s : SyncMap K V) : Nat → Nat → Nat
  | 0, h => h
  | fuel + 1, h =>
    match (s.entry h).bind SyncMapEntry.proxyFor with
    | some target => route s fuel target
    | none => h

def target (s : SyncMap K V) (h : Nat) : Nat := s.route s.entries.length h

def valueLocked (e : SyncMapEntry K V) : V := if e.mapEntry.delete then default else e.mapEntry.value

def value (s : SyncMap K V) (h : Nat) : V := ((s.entry (s.target h)).map valueLocked).getD default

def changeLocked (s : SyncMap K V) (h : Nat) (apply : V → V) : SyncMap K V :=
  match s.entry h with
  | none => s
  | some e =>
    if e.mapEntry.dirty then
      s.setEntry h { e with mapEntry.value := apply e.mapEntry.value }
    else
      let (stored, s) := s.dirtyLoadOrStore e.mapEntry.key h
      if stored = h then
        s.setEntry h { e with mapEntry.dirty := true, mapEntry.value := apply e.mapEntry.value }
      else
        match s.entry stored with
        | none => s
        | some t =>
          let e := { e with
            proxyFor := some stored
            mapEntry.value := t.mapEntry.value
            mapEntry.dirty := true
            mapEntry.delete := t.mapEntry.delete }
          let t := { t with mapEntry.dirty := true, mapEntry.value := apply t.mapEntry.value }
          (s.setEntry h e).setEntry stored t

def change (s : SyncMap K V) (h : Nat) (apply : V → V) : SyncMap K V :=
  s.changeLocked (s.target h) apply

/-- The condition reads the entry's own value, whatever the dirty entry of its key holds. -/
def changeIf (s : SyncMap K V) (h : Nat) (cond : V → Bool) (apply : V → V) : Bool × SyncMap K V :=
  match s.entry (s.target h) with
  | none => (false, s)
  | some e =>
    if cond e.mapEntry.value then (true, s.changeLocked (s.target h) apply) else (false, s)

def deleteLocked (s : SyncMap K V) (h : Nat) : SyncMap K V :=
  match s.entry h with
  | none => s
  | some e =>
    if e.mapEntry.dirty then s.setEntry h { e with mapEntry.delete := true }
    else
      let (stored, s) := s.dirtyLoadOrStore e.mapEntry.key h
      if stored = h then s.setEntry h { e with mapEntry.delete := true }
      else
        match s.entry stored with
        | none => s
        | some t =>
          let e := { e with
            proxyFor := some stored
            mapEntry.value := t.mapEntry.value
            mapEntry.delete := true
            mapEntry.dirty := t.mapEntry.dirty }
          (s.setEntry h e).setEntry stored { t with mapEntry.delete := true }

def deleteEntry (s : SyncMap K V) (h : Nat) : SyncMap K V := s.deleteLocked (s.target h)

def isDeleted (s : SyncMap K V) (h : Nat) : Bool :=
  match s.entry h with
  | none => false
  | some e => e.mapEntry.delete

def newEntry (s : SyncMap K V) (key : K) (value : V) : Nat × SyncMap K V :=
  s.newSyncMapEntryArc ⟨key, default, value, true, false⟩

def load (s : SyncMap K V) (key : K) : Option Nat × SyncMap K V :=
  match s.dirty.lookup key with
  | some h => if s.isDeleted h then (none, s) else (some h, s)
  | none =>
    match s.base.lookup key with
    | some val =>
      let (h, s) := s.newSyncMapEntryArc ⟨key, val, val, false, false⟩
      (some h, s)
    | none => (none, s)

def loadOrStore (s : SyncMap K V) (key : K) (value : Nat) : (Nat × Bool) × SyncMap K V :=
  match s.base.lookup key with
  | some baseValue =>
    match s.dirty.lookup key with
    | some h => if s.isDeleted h then ((h, false), s) else ((h, true), s)
    | none =>
      let (h, s) := s.newSyncMapEntryArc ⟨key, baseValue, baseValue, false, false⟩
      ((h, true), s)
  | none =>
    match s.dirty.lookup key with
    | some h => if s.isDeleted h then ((h, false), s) else ((h, true), s)
    | none => ((value, false), s.store key value)

def delete (s : SyncMap K V) (key : K) : SyncMap K V :=
  let current := (s.base.lookup key).getD default
  let (h, s) := s.newSyncMapEntryArc ⟨key, current, default, false, true⟩
  let loaded := s.dirty.lookup key
  let (h, s) := s.dirtyLoadOrStore key h
  if loaded.isSome then s.deleteEntry h else s

inductive HookCall (K V : Type) where
  | onDelete (key : K) (value : V)
  | onChange (key : K) (original value : V)
  | onAdd (key : K) (value : V)

structure Finalized (K V : Type) where
  result : HashMap K V
  changed : Bool
  hooks : List (HookCall K V)

/-- One turn of the traversal of the dirty entries. The copy made at the first change
is a copy of the base, which is what the result still is. -/
def finalizeEntry (s : SyncMap K V) (acc : Finalized K V) (key : K) : Finalized K V :=
  match (s.dirty.lookup key).bind s.entry with
  | none => acc
  | some e =>
    let copied := if acc.changed then acc.result else s.base
    if e.mapEntry.delete then
      ⟨copied.erase key, true, acc.hooks ++ [.onDelete key e.mapEntry.value]⟩
    else if e.mapEntry.dirty then
      let hook := if (s.base.lookup key).isSome
        then .onChange key e.mapEntry.original e.mapEntry.value else .onAdd key e.mapEntry.value
      ⟨copied.insert key e.mapEntry.value, true, acc.hooks ++ [hook]⟩
    else acc

def finalizeWith (s : SyncMap K V) (order : List K) : Finalized K V :=
  order.foldl s.finalizeEntry ⟨s.base, false, []⟩

def finalize (s : SyncMap K V) (order : List K) : HashMap K V × Bool :=
  ((s.finalizeWith order).result, (s.finalizeWith order).changed)

end SyncMap

end TypeScriptRs.Dirty
