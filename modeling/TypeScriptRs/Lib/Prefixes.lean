import Mathlib.Data.List.Basic

/-! Lists that lists begin with, up to a key, and covers of lists by beginnings of theirs. -/
namespace Prefixes
open List

variable {α β : Type} (key : α → β)

def Begins (p l : List α) : Prop := p.map key <+: l.map key

/-- Beginnings of lists, at least so long: every list has one, none begins another, and each element is that of a list that
begins with those before it. -/
structure Covers (least : Nat) (lists beginnings : List (List α)) : Prop where
  covered : ∀ l ∈ lists, ∃ p ∈ beginnings, Begins key p l
  long : ∀ p ∈ beginnings, least ≤ p.length
  apart : beginnings.Pairwise fun p q => ¬Begins key p q ∧ ¬Begins key q p
  drawn : ∀ p ∈ beginnings, ∀ (i : Nat) (a : α), p[i]? = some a → ∃ l ∈ lists, l[i]? = some a ∧ Begins key (p.take i) l

variable {key} {least n : Nat} {lists : List (List α)} {first l front front' p q : List α}

theorem Covers.nil : Covers key least [] [] := ⟨by simp, by simp, List.Pairwise.nil, by simp⟩

theorem take_agree (agree : ∀ i < n, (first[i]?).map key = (l[i]?).map key) : (first.take n).map key = (l.take n).map key := by
  refine ext_getElem? fun i => ?_
  rw [List.getElem?_map, List.getElem?_map, List.getElem?_take, List.getElem?_take]
  split
  · rename_i below
    exact agree i below
  · rfl

theorem begins_take (agree : ∀ i < n, (first[i]?).map key = (l[i]?).map key) : Begins key (first.take n) l := by
  unfold Begins
  rw [take_agree agree]
  exact (List.take_prefix n l).map key

theorem begins_cons (a b : α) (p l : List α) : Begins key (a :: p) (b :: l) ↔ key a = key b ∧ Begins key p l := by
  unfold Begins
  rw [map_cons, map_cons, cons_prefix_cons]

theorem begins_append (front p q : List α) : Begins key (front ++ p) (front ++ q) ↔ Begins key p q := by
  unfold Begins
  rw [map_append, map_append, prefix_append_right_inj]

theorem begins_drop (same : (l.take n).map key = front.map key) (begins : Begins key p (l.drop n)) : Begins key (front ++ p) l := by
  unfold Begins at begins ⊢
  have cut : l.map key = front.map key ++ (l.drop n).map key := by
    rw [← same, ← map_append, take_append_drop]
  rw [cut, map_append, prefix_append_right_inj]
  exact begins

theorem begins_front (long : front.length = front'.length) (begins : Begins key (front ++ p) (front' ++ q)) :
    front.map key = front'.map key := by
  unfold Begins at begins
  rw [map_append, map_append] at begins
  have short : (front.map key).length = (front'.map key).length := by simpa using long
  have both := (prefix_append (front.map key) (p.map key)).trans begins
  exact (prefix_of_prefix_length_le both (prefix_append _ _) (Nat.le_of_eq short)).eq_of_length short

theorem Covers.common (listed : first ∈ lists) (short : n ≤ first.length) (enough : least ≤ n)
    (agree : ∀ l ∈ lists, ∀ i < n, (first[i]?).map key = (l[i]?).map key) : Covers key least lists [first.take n] := by
  refine ⟨fun l member => ?_, fun p member => ?_, pairwise_singleton _ _, fun p member i a here => ?_⟩
  · exact ⟨_, mem_singleton_self _, begins_take (agree l member)⟩
  · rw [mem_singleton.mp member, length_take, Nat.min_eq_left short]
    exact enough
  rw [mem_singleton.mp member] at here ⊢
  rw [List.getElem?_take] at here
  split at here
  · rename_i below
    refine ⟨first, listed, here, ?_⟩
    rw [take_take, Nat.min_eq_left (Nat.le_of_lt below)]
    exact (List.take_prefix i first).map key
  · cases here

theorem Covers.regroup {ε : Type} {entries : List ε} {head : ε → List α} {tails found : ε → List (List α)}
    (heads : ∀ e ∈ entries, ∃ l ∈ lists, n ≤ l.length ∧ l.take n = head e)
    (grouped : ∀ l ∈ lists, ∃ e ∈ entries, l.drop n ∈ tails e ∧ (l.take n).map key = (head e).map key)
    (members : ∀ e ∈ entries, ∀ t ∈ tails e, ∃ l ∈ lists, l.drop n = t ∧ (l.take n).map key = (head e).map key)
    (differ : entries.Pairwise fun e e' => (head e).map key ≠ (head e').map key)
    (below : ∀ e ∈ entries, Covers key (least - n) (tails e) (found e)) :
    Covers key least lists (entries.flatMap fun e => (found e).map (head e ++ ·)) := by
  have long : ∀ e ∈ entries, (head e).length = n := by
    intro e listed
    obtain ⟨l, -, enough, same⟩ := heads e listed
    rw [← same, length_take, Nat.min_eq_left enough]
  refine ⟨fun l member => ?_, fun p member => ?_, ?_, fun p member i a here => ?_⟩
  · obtain ⟨e, listed, inside, same⟩ := grouped l member
    obtain ⟨p, found_, begins⟩ := (below e listed).covered _ inside
    exact ⟨head e ++ p, mem_flatMap.mpr ⟨e, listed, mem_map.mpr ⟨p, found_, rfl⟩⟩, begins_drop same begins⟩
  · obtain ⟨e, listed, inside⟩ := mem_flatMap.mp member
    obtain ⟨q, found_, rfl⟩ := mem_map.mp inside
    have enough := (below e listed).long q found_
    rw [length_append, long e listed]
    omega
  · rw [pairwise_flatMap]
    refine ⟨fun e listed => ?_, ?_⟩
    · rw [pairwise_map]
      refine (below e listed).apart.imp fun {p q} apart => ?_
      rw [begins_append, begins_append]
      exact apart
    refine differ.imp_of_mem fun {e e'} listed listed' differ p inside q inside' => ?_
    obtain ⟨p, -, rfl⟩ := mem_map.mp inside
    obtain ⟨q, -, rfl⟩ := mem_map.mp inside'
    have same : (head e).length = (head e').length := (long e listed).trans (long e' listed').symm
    exact ⟨fun begins => differ (begins_front same begins), fun begins => differ (begins_front same.symm begins).symm⟩
  obtain ⟨e, listed, inside⟩ := mem_flatMap.mp member
  obtain ⟨q, found_, rfl⟩ := mem_map.mp inside
  rw [List.getElem?_append] at here
  rw [take_append, long e listed]
  split at here
  · rename_i within
    rw [long e listed] at within
    obtain ⟨l, known, enough, same⟩ := heads e listed
    rw [← same, List.getElem?_take, if_pos within] at here
    refine ⟨l, known, here, ?_⟩
    have start : i ≤ n := Nat.le_of_lt within
    rw [Nat.sub_eq_zero_of_le start, take_zero, append_nil, ← same, take_take, Nat.min_eq_left start]
    exact (List.take_prefix i l).map key
  rename_i beyond
  rw [long e listed] at beyond here
  obtain ⟨t, member', there, begins⟩ := (below e listed).drawn q found_ _ a here
  obtain ⟨l, known, rfl, same⟩ := members e listed t member'
  rw [List.getElem?_drop, Nat.add_sub_cancel' (Nat.le_of_not_lt beyond)] at there
  refine ⟨l, known, there, ?_⟩
  rw [take_of_length_le (by rw [long e listed]; omega)]
  exact begins_drop same begins

end Prefixes
