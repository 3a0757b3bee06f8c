import Mathlib.Data.Finset.Card
import TypeScriptRs.Lib.Routes

/-! The breadth-first search for a node with a result, and the paths that it returns. -/
namespace TypeScriptRs.Core
open Routes

abbrev OrderedMap (K V : Type) := List (K × V)

namespace OrderedMap

variable {K V : Type} [DecidableEq K]

def has (m : OrderedMap K V) (key : K) : Bool := m.any fun entry => entry.1 = key

def set (m : OrderedMap K V) (key : K) (value : V) : OrderedMap K V :=
  if m.has key then m.map fun entry => if entry.1 = key then (key, value) else entry else m ++ [(key, value)]

def values (m : OrderedMap K V) : List V := m.map Prod.snd

end OrderedMap

inductive BreadthFirstSearchJob (N : Type) where
  | mk (node : N) (parent : Option (BreadthFirstSearchJob N))

def BreadthFirstSearchJob.node {N : Type} : BreadthFirstSearchJob N → N
  | .mk node _ => node

def createPath {N : Type} : BreadthFirstSearchJob N → List N
  | .mk node none => [node]
  | .mk node (some parent) => node :: createPath parent

abbrev BreadthFirstSearchLevel (K N : Type) := OrderedMap K (BreadthFirstSearchJob N)

structure BreadthFirstSearchOptions (K N : Type) where
  visited : List K := []
  preprocessLevel : Option (BreadthFirstSearchLevel K N → BreadthFirstSearchLevel K N) := none

structure BreadthFirstSearchResult (N : Type) where
  stopped : Bool
  path : List N

/-- What the caller passes; a visit says whether the node is a result, and whether the search stops there. -/
structure BreadthFirstSearch (K N : Type) where
  neighbors : N → List N
  visit : N → Bool × Bool
  getKey : N → K

/-- The keys that have been visited, the nodes that `visit` was called for, in this order, and the first result. -/
structure Progress (K N : Type) where
  visited : List K
  calls : List N
  fallback : Option (BreadthFirstSearchJob N)

inductive LevelEnd (K N : Type) where
  | stopped (j : BreadthFirstSearchJob N) (s : Progress K N)
  | done (s : Progress K N) (nextJobs : BreadthFirstSearchLevel K N)

namespace BreadthFirstSearch

variable {K N : Type} [DecidableEq K] (search : BreadthFirstSearch K N)

def addChild (j : BreadthFirstSearchJob N) (nextJobs : BreadthFirstSearchLevel K N) (child : N) : BreadthFirstSearchLevel K N :=
  if nextJobs.has (search.getKey child) then nextJobs else nextJobs.set (search.getKey child) (.mk child (some j))

def record (s : Progress K N) (j : BreadthFirstSearchJob N) : Progress K N where
  visited := search.getKey j.node :: s.visited
  calls := s.calls ++ [j.node]
  fallback := if (search.visit j.node).1 ∧ s.fallback.isNone then some j else s.fallback

def visitLevel : List (BreadthFirstSearchJob N) → Progress K N → BreadthFirstSearchLevel K N → LevelEnd K N
  | [], s, nextJobs => .done s nextJobs
  | j :: jobs, s, nextJobs =>
    if search.getKey j.node ∈ s.visited then visitLevel jobs s nextJobs
    else if search.visit j.node = (true, true) then
      .stopped j { s with visited := search.getKey j.node :: s.visited, calls := s.calls ++ [j.node] }
    else visitLevel jobs (search.record s j) ((search.neighbors j.node).foldl (search.addChild j) nextJobs)

def searchLevels (options : BreadthFirstSearchOptions K N) : Nat → BreadthFirstSearchLevel K N → Progress K N →
    Option (BreadthFirstSearchResult N × Progress K N)
  | 0, _, _ => none
  | fuel + 1, level, s =>
    if level = [] then some (⟨false, (s.fallback.map createPath).getD []⟩, s)
    else
      let level := match options.preprocessLevel with
        | some preprocess => preprocess level
        | none => level
      match search.visitLevel level.values s [] with
      | .stopped j s => some (⟨true, createPath j⟩, s)
      | .done s nextJobs => searchLevels options fuel nextJobs s

def breadthFirstSearchParallelEx (start : N) (options : BreadthFirstSearchOptions K N) (fuel : Nat) :
    Option (BreadthFirstSearchResult N × Progress K N) :=
  search.searchLevels options fuel [(search.getKey start, .mk start none)] ⟨options.visited, [], none⟩

end BreadthFirstSearch

end TypeScriptRs.Core
