import Mathlib.Data.Finmap
import Mathlib.Data.List.Sort
import Mathlib.Data.String.Basic

/-! Hash tables as finite maps, listed in any order. -/

abbrev HashMap (K V : Type) := Finmap fun _ : K => V

namespace HashMap
open List

variable {K V : Type} [DecidableEq K] {m m' : HashMap K V} {S X : Type}

theorem lookup_insert_if (m : HashMap K V) (k k' : K) (v : V) :
    (m.insert k v).lookup k' = if k' = k then some v else m.lookup k' := by
  split
  · rename_i h
    rw [h, Finmap.lookup_insert]
  · rename_i h
    exact Finmap.lookup_insert_of_ne m h

theorem lookup_erase_if (m : HashMap K V) (k k' : K) : (m.erase k).lookup k' = if k' = k then none else m.lookup k' := by
  split
  · rename_i h
    rw [h, Finmap.lookup_erase]
  · rename_i h
    exact Finmap.lookup_erase_ne h

theorem lookup_eq_if (m : HashMap K V) (k k' : K) : m.lookup k' = if k' = k then m.lookup k else m.lookup k' := by
  split
  · rename_i same
    rw [same]
  · rfl

/-- Set or remove the value of one key, from the value it has. -/
def alter (m : HashMap K V) (k : K) (g : Option V → Option V) : HashMap K V :=
  match g (m.lookup k) with
  | some v => m.insert k v
  | none => m.erase k

theorem lookup_alter (m : HashMap K V) (k k' : K) (g : Option V → Option V) :
    (m.alter k g).lookup k' = if k' = k then g (m.lookup k) else m.lookup k' := by
  unfold alter
  cases h : g (m.lookup k) with
  | some v => exact lookup_insert_if m k k' v
  | none => exact lookup_erase_if m k k'

omit [DecidableEq K] in
theorem eq_empty (none_ : ∀ k, k ∉ m) : m = ∅ := by
  classical
  refine Finmap.ext_lookup fun k => ?_
  rw [Finmap.lookup_eq_none.mpr (none_ k), Finmap.lookup_empty]

theorem lookup_union_cases {k : K} {v : V} (found : (m ∪ m').lookup k = some v) : m.lookup k = some v ∨ m'.lookup k = some v := by
  by_cases here : k ∈ m
  · rw [Finmap.lookup_union_left here] at found
    exact .inl found
  · rw [Finmap.lookup_union_right here] at found
    exact .inr found

theorem union_eq_empty_iff : m ∪ m' = ∅ ↔ m = ∅ ∧ m' = ∅ := by
  constructor
  · intro both
    have none_ : ∀ k, k ∉ m ∪ m' := fun k => both ▸ Finmap.notMem_empty
    exact ⟨eq_empty fun k here => none_ k (Finmap.mem_union.mpr (.inl here)),
      eq_empty fun k there => none_ k (Finmap.mem_union.mpr (.inr there))⟩
  · rintro ⟨rfl, rfl⟩
    exact Finmap.empty_union

theorem foldl_own {f : S → K → S} (get : S → K → X) (after : K → X → X)
    (step : ∀ s k k', get (f s k) k' = if k' = k then after k (get s k) else get s k') :
    ∀ (list : List K), list.Nodup → ∀ (s : S) (k : K),
      get (list.foldl f s) k = if k ∈ list then after k (get s k) else get s k := by
  intro list
  induction list with
  | nil =>
    intro _ s k
    exact (if_neg not_mem_nil).symm
  | cons k₁ list ih =>
    intro distinct s k
    obtain ⟨fresh, rest⟩ := nodup_cons.mp distinct
    rw [foldl_cons, ih rest, step]
    by_cases same : k = k₁
    · subst same
      rw [if_neg fresh, if_pos rfl, if_pos mem_cons_self]
    · rw [if_neg same]
      exact if_congr (by rw [mem_cons, or_iff_right same]) rfl rfl

/-- An order in which a traversal may list the keys of a table. -/
def Enumerates (order : List K) (m : HashMap K V) : Prop :=
  order.Nodup ∧ ∀ k, k ∈ order ↔ k ∈ m

omit [DecidableEq K] in
theorem exists_enumerates (m : HashMap K V) : ∃ order, Enumerates order m :=
  ⟨m.keys.toList, m.keys.nodup_toList, fun k => by rw [Finset.mem_toList, Finmap.mem_keys]⟩

/-- The table that answers like `f` on the given keys and has no others. -/
def ofKeys (keys : Finset K) (f : K → Option V) : HashMap K V :=
  Finmap.keysLookupEquiv.symm
    ⟨(keys.filter fun k => (f k).isSome, fun k => if k ∈ keys then f k else none), fun k => by
      by_cases member : k ∈ keys <;> simp [member]⟩

theorem lookup_ofKeys (keys : Finset K) (f : K → Option V) (k : K) : (ofKeys keys f).lookup k = if k ∈ keys then f k else none :=
  Finmap.keysLookupEquiv_symm_apply_lookup _ k

def alterAll (m : HashMap K V) (f : K → V → Option V) : HashMap K V :=
  ofKeys m.keys fun k => (m.lookup k).bind (f k)

theorem lookup_alterAll (m : HashMap K V) (f : K → V → Option V) (k : K) : (m.alterAll f).lookup k = (m.lookup k).bind (f k) := by
  rw [alterAll, lookup_ofKeys]
  split
  · rfl
  · rename_i absent
    rw [Finmap.mem_keys, ← Finmap.lookup_eq_none] at absent
    rw [absent]
    rfl

omit [DecidableEq K] in
theorem foldl_keeps {f : S → K → V → S} (comm : ∀ s k₁ v₁ k₂ v₂, f (f s k₁ v₁) k₂ v₂ = f (f s k₂ v₂) k₁ v₁)
    {P : S → Prop} (turn : ∀ s k v, P s → P (f s k v)) (m : HashMap K V) {s : S} (start : P s) :
    P (m.foldl f comm s) := by
  induction m using Finmap.induction_on with
  | H a =>
    show P (a.entries.foldl (fun s e => f s e.1 e.2) s)
    generalize a.entries = entries
    induction entries generalizing s with
    | nil => exact start
    | cons e entries ih => exact ih (turn s e.1 e.2 start)

theorem foldl_pointwise {f : S → K → V → S} (comm : ∀ s k₁ v₁ k₂ v₂, f (f s k₁ v₁) k₂ v₂ = f (f s k₂ v₂) k₁ v₁)
    (get : S → K → X) (g : X → V → X)
    (step : ∀ s k v k', get (f s k v) k' = if k' = k then g (get s k') v else get s k')
    (m : HashMap K V) (s : S) (k : K) :
    get (m.foldl f comm s) k = match m.lookup k with
      | some v => g (get s k) v
      | none => get s k := by
  induction m using Finmap.induction_on with
  | H a =>
    obtain ⟨entries, distinct⟩ := a
    show get (entries.foldl (fun s e => f s e.1 e.2) s) k = match entries.dlookup k with
      | some v => g (get s k) v
      | none => get s k
    induction entries generalizing s with
    | nil => rfl
    | cons e entries ih =>
      obtain ⟨k₁, v₁⟩ := e
      obtain ⟨fresh, rest⟩ := nodupKeys_cons.mp distinct
      rw [foldl_cons, ih _ rest, step]
      by_cases same : k = k₁
      · subst same
        rw [dlookup_cons_eq, dlookup_eq_none.mpr fresh, if_pos rfl]
      · rw [dlookup_cons_ne _ _ same, if_neg same]

end HashMap

namespace Finset

def sorted (s : Finset String) : List String :=
  Quot.liftOn s.val (List.insertionSort (· ≤ ·)) fun a b same =>
    List.Perm.eq_of_pairwise (fun _ _ _ _ below above => le_antisymm below above)
      (List.pairwise_insertionSort _ a) (List.pairwise_insertionSort _ b)
      ((List.perm_insertionSort _ a).trans (same.trans (List.perm_insertionSort _ b).symm))

@[simp] theorem mem_sorted {s : Finset String} {a : String} : a ∈ s.sorted ↔ a ∈ s := by
  obtain ⟨m, distinct⟩ := s
  induction m using Quotient.inductionOn with
  | h l => exact (List.perm_insertionSort _ l).mem_iff

theorem nodup_sorted (s : Finset String) : s.sorted.Nodup := by
  obtain ⟨m, distinct⟩ := s
  induction m using Quotient.inductionOn with
  | h l => exact (List.perm_insertionSort _ l).nodup_iff.mpr distinct

end Finset
