import TypeScriptRs.Incremental.Program
import TypeScriptRs.Lib.Run

/-! The references that files store, and the reverse index. -/
namespace TypeScriptRs.Incremental
open Run List

structure ReferenceMap where
  references : HashMap Path (Finset Path) := ∅
  referencedBy : Option (HashMap Path (Finset Path)) := none

namespace ReferenceMap

def storeReferences (m : ReferenceMap) (file : Path) (refs : Finset Path) : ReferenceMap :=
  { m with references := m.references.insert file refs }

def getReferences (m : ReferenceMap) (file : Path) : Finset Path := (m.references.lookup file).getD ∅

section
variable (order : KeyOrder) {key k file : Path} {m : ReferenceMap}

def listed (index : HashMap Path (Finset Path)) (file : Path) : Finset Path := (index.lookup file).getD ∅

def addReference (key : Path) (index : HashMap Path (Finset Path)) (ref : Path) : HashMap Path (Finset Path) :=
  index.insert ref (insert key (listed index ref))

def computeReferencedBy (m : ReferenceMap) : HashMap Path (Finset Path) :=
  (order.list m.references.keys).foldl
    (fun index key => (order.list (m.getReferences key)).foldl (addReference key) index) ∅

def getReferencedBy (m : ReferenceMap) (file : Path) : Finset Path × ReferenceMap :=
  let index := m.referencedBy.getD (m.computeReferencedBy order)
  (listed index file, { m with referencedBy := some index })

theorem mem_listed_addReference {ref : Path} {index : HashMap Path (Finset Path)} :
    k ∈ listed (addReference key index ref) file ↔ k ∈ listed index file ∨ (k = key ∧ file = ref) := by
  unfold listed addReference
  rw [HashMap.lookup_insert_if]
  by_cases same : file = ref
  · subst same
    simp [listed, or_comm]
  · simp [same]

theorem mem_listed_addReferences (refs : List Path) (index : HashMap Path (Finset Path)) :
    k ∈ listed (refs.foldl (addReference key) index) file ↔ k ∈ listed index file ∨ (k = key ∧ file ∈ refs) := by
  induction refs generalizing index with
  | nil => simp
  | cons ref refs ih => grind [mem_listed_addReference]

theorem mem_listed_foldl (keys : List Path) (index : HashMap Path (Finset Path)) :
    k ∈ listed (keys.foldl (fun index key => (order.list (m.getReferences key)).foldl (addReference key) index) index) file ↔
      k ∈ listed index file ∨ (k ∈ keys ∧ file ∈ m.getReferences k) := by
  induction keys generalizing index with
  | nil => simp
  | cons key keys ih =>
    rw [foldl_cons, ih, mem_listed_addReferences, order.mem_list]
    grind

theorem mem_getReferences (refers : file ∈ m.getReferences k) : k ∈ m.references.keys := by
  rw [Finmap.mem_keys, ← Finmap.lookup_isSome]
  unfold getReferences at refers
  cases found : m.references.lookup k with
  | none => simp [found] at refers
  | some refs => rfl

theorem mem_computeReferencedBy : k ∈ listed (m.computeReferencedBy order) file ↔ file ∈ m.getReferences k := by
  unfold computeReferencedBy
  rw [mem_listed_foldl, order.mem_list]
  constructor
  · rintro (before | ⟨-, refers⟩)
    · simp [listed] at before
    · exact refers
  · exact fun refers => .inr ⟨mem_getReferences refers, refers⟩
end

variable {m : ReferenceMap}

/-- Every question is answered by exactly the files that refer to the one asked for. -/
def Exact (m : ReferenceMap) : Prop :=
  ∀ order file k, k ∈ (m.getReferencedBy order file).1 ↔ file ∈ m.getReferences k

/-- A call on one of the maps there are. A clone comes after them. -/
inductive Call where
  | storeReferences (map : Nat) (file : Path) (refs : Finset Path)
  | getReferencedBy (map : Nat) (file : Path) (order : KeyOrder)
  | clone (map : Nat)

def step (maps : List ReferenceMap) : Call → List ReferenceMap × Option (Finset Path)
  | .storeReferences map file refs => (maps.modify map (storeReferences · file refs), none)
  | .getReferencedBy map file order =>
    match maps[map]? with
    | some m => (maps.set map (m.getReferencedBy order file).2, some (m.getReferencedBy order file).1)
    | none => (maps, none)
  | .clone map => (maps ++ maps[map]?.toList, none)

/-- What is stored in a map that was asked, or cloned from one that was, is there already. -/
def Repeats (maps : List ReferenceMap) : Call → Prop
  | .storeReferences map file refs => ∀ m, maps[map]? = some m → m.referencedBy.isSome → m.getReferences file = refs
  | .getReferencedBy _ _ _ | .clone _ => True

def sortedKeys : KeyOrder := ⟨Finset.sorted, Finset.nodup_sorted, fun _ _ => Finset.mem_sorted⟩

theorem exact_of_fresh (fresh : m.referencedBy = none) : m.Exact := by
  intro order file k
  unfold getReferencedBy
  rw [fresh]
  exact mem_computeReferencedBy order

theorem getReferencedBy_cached {index : HashMap Path (Finset Path)} (cached : m.referencedBy = some index)
    (order : KeyOrder) (file : Path) : (m.getReferencedBy order file).1 = listed index file := by
  unfold getReferencedBy
  rw [cached]
  rfl

theorem Exact.getReferencedBy (exact_ : m.Exact) (order : KeyOrder) (file : Path) :
    (m.getReferencedBy order file).2.Exact := fun _ file' k => exact_ order file' k

theorem getReferences_storeReferences (m : ReferenceMap) (file : Path) (refs : Finset Path) (k : Path) :
    (m.storeReferences file refs).getReferences k = if k = file then refs else m.getReferences k := by
  unfold getReferences storeReferences
  rw [HashMap.lookup_insert_if]
  split <;> rfl

theorem Exact.storeReferences_iff (exact_ : m.Exact) {file : Path} {refs : Finset Path} :
    (m.storeReferences file refs).Exact ↔ (m.referencedBy.isSome → m.getReferences file = refs) := by
  cases cached : m.referencedBy with
  | none => simpa using exact_of_fresh (m := m.storeReferences file refs) cached
  | some index =>
    have before : ∀ order target k, k ∈ ((m.storeReferences file refs).getReferencedBy order target).1 ↔ target ∈ m.getReferences k := by
      intro order target k
      have still : (m.storeReferences file refs).referencedBy = some index := cached
      rw [getReferencedBy_cached still, ← exact_ order target k, getReferencedBy_cached cached]
    constructor
    · intro still _
      ext target
      have now := (still sortedKeys target file).symm.trans (before sortedKeys target file)
      rw [getReferences_storeReferences, if_pos rfl] at now
      exact now.symm
    intro same order target k
    rw [before, getReferences_storeReferences]
    split
    · rename_i this
      rw [this, same rfl]
    · rfl

def AllExact (maps : List ReferenceMap) : Prop := ∀ (i : Nat) (m : ReferenceMap), maps[i]? = some m → m.Exact

theorem allExact_append {maps more : List ReferenceMap} (exact_ : AllExact maps) (others : ∀ m ∈ more, m.Exact) :
    AllExact (maps ++ more) := by
  intro i m found
  rcases mem_append.mp (mem_of_getElem? found) with before | after
  · obtain ⟨j, there⟩ := mem_iff_getElem?.mp before
    exact exact_ j m there
  · exact others m after

theorem step_exact_iff (maps : List ReferenceMap) (call : Call) (exact_ : AllExact maps) :
    AllExact (step maps call).1 ↔ Repeats maps call := by
  cases call with
  | storeReferences map file refs =>
    constructor
    · intro still m found
      have stored : (step maps (.storeReferences map file refs)).1[map]? = some (m.storeReferences file refs) := by
        simp [step, found]
      exact ((exact_ map m found).storeReferences_iff).mp (still map _ stored)
    intro repeats i m found
    rw [step, List.getElem?_modify] at found
    obtain ⟨before, there, becomes⟩ := Option.map_eq_some_iff.mp found
    split at becomes
    · rename_i same
      subst same becomes
      exact ((exact_ map before there).storeReferences_iff).mpr (repeats before there)
    · subst becomes
      exact exact_ i before there
  | getReferencedBy map file order =>
    refine iff_of_true ?_ trivial
    cases there : maps[map]? with
    | none => simpa [step, there] using exact_
    | some m =>
      intro i m' found
      simp only [step, there, List.getElem?_set] at found
      split at found
      · split at found
        · cases found
          exact (exact_ map m there).getReferencedBy order file
        · cases found
      · exact exact_ i m' found
  | clone map =>
    refine iff_of_true (allExact_append exact_ fun m found => ?_) trivial
    exact exact_ map m (Option.mem_toList.mp found)

/-- In a run from one new map, every map answers exactly at every moment, exactly if no call
stores other references in a map with an index. -/
theorem getReferencedBy_exact_iff (calls : List Call) :
    (∀ n, AllExact (run step [{}] (calls.take n)).1) ↔ Along step Repeats [{}] calls := by
  refine holds_iff_along step_exact_iff ?_
  intro i m found
  have fresh : m = {} := mem_singleton.mp (mem_of_getElem? found)
  exact exact_of_fresh (fresh ▸ rfl)

def staleCalls : List Call :=
  [.getReferencedBy 0 "a.ts" sortedKeys, .storeReferences 0 "b.ts" {"a.ts"}, .getReferencedBy 0 "a.ts" sortedKeys]

theorem storeAfterQuestion_stale :
    (run step [{}] staleCalls).2 = [some ∅, none, some ∅] ∧
    ((run step [{}] staleCalls).1.map (getReferences · "b.ts")) = [{"a.ts"}] ∧ ¬ AllExact (run step [{}] staleCalls).1 := by
  refine ⟨rfl, rfl, fun exact_ => ?_⟩
  have listed : "b.ts" ∈ (∅ : Finset Path) := (exact_ 0 _ rfl sortedKeys "a.ts" "b.ts").mpr (Finset.mem_singleton_self _)
  exact absurd listed (Finset.notMem_empty _)

end ReferenceMap

end TypeScriptRs.Incremental
