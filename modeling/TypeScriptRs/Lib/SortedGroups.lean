import Mathlib.Data.Finset.Card
import Mathlib.Data.List.Sort
import TypeScriptRs.Lib.Entries

/-! Lists sorted by a key, searched from a bound on, and put into groups. -/
namespace SortedGroups
open List

section
variable {α κ : Type} [LinearOrder κ] (key : α → κ) {same : α → α → Bool} {q : α → Bool} {l : List α} {bound : κ}

def sortByKey (l : List α) : List α := l.insertionSort fun a b => key a ≤ key b

/-- Entries that are the same as the last one kept are left out. -/
def dedupFrom (same : α → α → Bool) (last : α) : List α → List α
  | [] => []
  | a :: rest => if same a last then dedupFrom same last rest else a :: dedupFrom same a rest

def dedupBy (same : α → α → Bool) : List α → List α
  | [] => []
  | a :: rest => a :: dedupFrom same a rest

/-- The index of the first entry of the second part of a list whose first part has the property. -/
def partitionPoint (p : α → Bool) (l : List α) : Nat := (l.takeWhile p).length

theorem getElem?_partitionPoint (p : α → Bool) (l : List α) : l[partitionPoint p l]? = l.find? fun a => !p a := by
  induction l with
  | nil => rfl
  | cons a rest ih =>
    unfold partitionPoint at ih ⊢
    cases holds : p a with
    | true => simpa [holds] using ih
    | false => simp [holds]

theorem find?_dedupFrom (respects : ∀ a b, same a b = true → q a = q b) {last : α} (passed : q last = false) : (dedupFrom same last l).find? q = l.find? q := by
  induction l generalizing last with
  | nil => rfl
  | cons a rest ih =>
    rw [dedupFrom]
    by_cases repeated : same a last = true
    · have skipped : q a = false := (respects a last repeated).trans passed
      rw [if_pos repeated, ih passed, List.find?_cons_of_neg (by simp [skipped])]
    · rw [if_neg repeated]
      cases found : q a with
      | true => rw [List.find?_cons_of_pos found, List.find?_cons_of_pos found]
      | false => rw [List.find?_cons_of_neg (by simp [found]), List.find?_cons_of_neg (by simp [found]), ih found]

theorem find?_dedupBy (respects : ∀ a b, same a b = true → q a = q b) (l : List α) : (dedupBy same l).find? q = l.find? q := by
  cases l with
  | nil => rfl
  | cons a rest =>
    rw [dedupBy]
    cases found : q a with
    | true => rw [List.find?_cons_of_pos found, List.find?_cons_of_pos found]
    | false =>
      rw [List.find?_cons_of_neg (by simp [found]), List.find?_cons_of_neg (by simp [found]),
        find?_dedupFrom respects found]

theorem sortByKey_map {β κ' : Type} [LinearOrder κ'] {f : α → β} {key' : β → κ'}
    (agree : ∀ a ∈ l, ∀ b ∈ l, key a ≤ key b ↔ key' (f a) ≤ key' (f b)) :
    sortByKey key' (l.map f) = (sortByKey key l).map f :=
  (map_insertionSort _ _ f l agree).symm

theorem filter_sortByKey (l : List α) (k : κ) :
    (sortByKey key l).filter (fun a => decide (key a = k)) = l.filter fun a => decide (key a = k) := by
  have level : (l.filter fun a => decide (key a = k)).Pairwise fun a b => key a ≤ key b := by
    refine List.Pairwise.imp_of_mem ?_ (pairwise_of_forall fun _ _ => trivial)
    intro a b ha hb _
    have left : key a = k := of_decide_eq_true (mem_filter.mp ha).2
    have right : key b = k := of_decide_eq_true (mem_filter.mp hb).2
    rw [left, right]
  have kept := (sublist_insertionSort level filter_sublist).filter fun a => decide (key a = k)
  rw [filter_filter] at kept
  simp only [Bool.and_self] at kept
  have counts := ((perm_insertionSort (fun a b => key a ≤ key b) l).filter fun a => decide (key a = k)).length_eq
  exact (kept.eq_of_length counts.symm).symm

variable {key}

theorem getElem?_sorted (respects : ∀ a b, same a b = true → key a = key b) (l : List α) (bound : κ) :
    (dedupBy same (sortByKey key l))[partitionPoint (fun a => decide (key a < bound))
      (dedupBy same (sortByKey key l))]? = (sortByKey key l).find? fun a => decide (bound ≤ key a) := by
  have reaches : (fun a => !decide (key a < bound)) = fun a => decide (bound ≤ key a) := by
    funext a
    exact decide_not.symm.trans (decide_eq_decide.mpr not_lt)
  rw [getElem?_partitionPoint, reaches]
  exact find?_dedupBy (fun a b alike => by rw [respects a b alike]) _

/-- The first entry of the sorted list from a bound on has the least key there is, and is the first with it. -/
theorem find?_sortByKey {m : α} (found : (sortByKey key l).find? (fun a => decide (bound ≤ key a)) = some m) :
    m ∈ l ∧ bound ≤ key m ∧ (∀ a ∈ l, bound ≤ key a → key m ≤ key a) ∧
      l.find? (fun a => decide (key a = key m)) = some m := by
  obtain ⟨reached, before, after, parts, passed⟩ := List.find?_eq_some_iff_append.mp found
  have reached : bound ≤ key m := of_decide_eq_true reached
  have below : ∀ a ∈ before, key a < bound := by
    intro a member
    simpa using passed a member
  have members : ∀ a, a ∈ l ↔ a ∈ before ++ m :: after := by
    intro a
    rw [← parts]
    exact (mem_insertionSort _).symm
  have sorted : (sortByKey key l).Pairwise fun a b => key a ≤ key b := pairwise_insertionSort _ l
  rw [parts] at sorted
  refine ⟨(members m).mpr (by simp), reached, ?_, ?_⟩
  · intro a member from_
    rcases mem_append.mp ((members a).mp member) with early | late
    · exact absurd from_ (not_le_of_gt (below a early))
    · rcases mem_cons.mp late with rfl | later
      · exact le_refl _
      · exact (pairwise_cons.mp (pairwise_append.mp sorted).2.1).1 a later
  have nothing : before.filter (fun a => decide (key a = key m)) = [] := by
    refine filter_eq_nil_iff.mpr fun a member => ?_
    have := below a member
    simp only [decide_eq_true_eq]
    exact (this.trans_le reached).ne
  rw [← List.head?_filter, ← filter_sortByKey, parts, filter_append, nothing, nil_append,
    filter_cons_of_pos (by simp)]
  rfl

theorem find?_sortByKey_none : (sortByKey key l).find? (fun a => decide (bound ≤ key a)) = none ↔ ∀ a ∈ l, key a < bound := by
  simp [sortByKey]
end

variable {α κ : Type} [DecidableEq κ] (key : α → κ)

/-- The entries by their keys, in the order in which they come. -/
def groupBy (l : List α) : List (κ × List α) :=
  l.foldl (fun groups a => Entries.insert groups (key a) ((groups.lookup (key a)).getD [] ++ [a])) []

theorem groupBy_concat (l : List α) (a : α) : groupBy key (l ++ [a]) =
    Entries.insert (groupBy key l) (key a) (((groupBy key l).lookup (key a)).getD [] ++ [a]) := by
  rw [groupBy, foldl_append]
  rfl

theorem lookup_groupBy (l : List α) (k : κ) : (groupBy key l).lookup k =
    if k ∈ l.map key then some (l.filter fun a => decide (key a = k)) else none := by
  induction l using List.reverseRecOn with
  | nil => rfl
  | append_singleton l a ih =>
    rw [groupBy_concat, Entries.lookup_insert]
    by_cases here : k = key a
    · subst here
      rw [if_pos rfl, if_pos (by simp), ih, filter_append, filter_cons_of_pos (by simp), filter_nil]
      by_cases known : key a ∈ l.map key
      · rw [if_pos known, Option.getD_some]
      · have none_ : l.filter (fun b => decide (key b = key a)) = [] := by
          refine filter_eq_nil_iff.mpr fun b member same => known ?_
          exact mem_map.mpr ⟨b, member, of_decide_eq_true same⟩
        rw [if_neg known, none_, Option.getD_none]
    · have elsewhere : [a].filter (fun b => decide (key b = k)) = [] := by
        rw [filter_cons_of_neg (by simpa using Ne.symm here), filter_nil]
      have same : k ∈ (l ++ [a]).map key ↔ k ∈ l.map key := by simp [here]
      rw [if_neg here, ih, filter_append, elsewhere, append_nil, if_congr same rfl rfl]

theorem keys_groupBy (l : List α) : ((groupBy key l).map (·.1)).Nodup ∧ ∀ k, k ∈ (groupBy key l).map (·.1) ↔ k ∈ l.map key := by
  induction l using List.reverseRecOn with
  | nil => exact ⟨nodup_nil, fun _ => Iff.rfl⟩
  | append_singleton l a ih =>
    obtain ⟨distinct, members⟩ := ih
    rw [groupBy_concat]
    refine ⟨Entries.nodup_insert distinct _ _, fun k => ?_⟩
    rw [Entries.keys_insert]
    have known : ((groupBy key l).lookup (key a)).isSome = true ↔ key a ∈ l.map key := by
      rw [lookup_groupBy]
      split <;> simp_all
    split
    · rename_i present
      rw [members, map_append, mem_append]
      refine ⟨.inl, fun either => either.elim id fun last => ?_⟩
      rw [mem_singleton.mp last]
      exact known.mp present
    · rw [mem_append, members, map_append, mem_append]
      rfl

theorem mem_groupBy (l : List α) (e : κ × List α) :
    e ∈ groupBy key l ↔ e.1 ∈ l.map key ∧ e.2 = l.filter fun a => decide (key a = e.1) := by
  obtain ⟨distinct, members⟩ := keys_groupBy key l
  have coherent : Entries.Coherent (groupBy key l) := Entries.distinct_of_nodup distinct ▸ Entries.distinct_coherent (groupBy key l)
  constructor
  · intro listed
    have known : e.1 ∈ l.map key := (members e.1).mp (mem_map_of_mem listed)
    have found := coherent e listed
    rw [lookup_groupBy, if_pos known] at found
    exact ⟨known, (Option.some.inj found).symm⟩
  · rintro ⟨known, same⟩
    refine Entries.mem_of_lookup ?_
    rw [lookup_groupBy, if_pos known, ← same]

theorem length_groupBy (l : List α) : (groupBy key l).length = (l.map key).toFinset.card := by
  obtain ⟨distinct, members⟩ := keys_groupBy key l
  have same : ((groupBy key l).map (·.1)).toFinset = (l.map key).toFinset := by
    ext k
    rw [mem_toFinset, mem_toFinset, members]
  rw [← same, toFinset_card_of_nodup distinct, length_map]

theorem lookup_mapValues {V W : Type} (f : V → W) (entries : List (κ × V)) (k : κ) :
    (entries.map fun e => (e.1, f e.2)).lookup k = (entries.lookup k).map f := by
  induction entries with
  | nil => rfl
  | cons e rest ih =>
    rw [map_cons, Entries.lookup_cons_if, Entries.lookup_cons_if, ih]
    split
    · rfl
    · rfl

end SortedGroups
