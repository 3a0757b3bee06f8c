import Mathlib.Data.List.Basic
import Mathlib.Data.List.Induction
import Mathlib.Data.List.TakeWhile

/-! Lists cut at a separator. -/
namespace Split
open List

variable {α : Type} {sep x : α} {pieces : List (List α)} {piece front xs : List α}

theorem intercalate_cons (piece : List α) (some_ : pieces ≠ []) :
    [sep].intercalate (piece :: pieces) = piece ++ sep :: [sep].intercalate pieces := by
  rw [intercalate_cons_of_ne_nil some_]
  simp

theorem mem_intercalate (listed : x ∈ [sep].intercalate pieces) : x = sep ∨ ∃ piece ∈ pieces, x ∈ piece := by
  induction pieces with
  | nil => cases listed
  | cons first rest ih =>
    cases rest with
    | nil =>
      rw [intercalate_singleton] at listed
      exact .inr ⟨first, by simp, listed⟩
    | cons second rest =>
      rw [intercalate_cons first (cons_ne_nil _ _), mem_append, mem_cons] at listed
      rcases listed with here | same | later
      · exact .inr ⟨first, by simp, here⟩
      · exact .inl same
      · exact (ih later).imp_right fun ⟨piece, member, inside⟩ => ⟨piece, mem_cons_of_mem _ member, inside⟩

theorem mem_intercalate_of_mem (listed : piece ∈ pieces) (inside : x ∈ piece) : x ∈ [sep].intercalate pieces := by
  induction pieces with
  | nil => cases listed
  | cons first rest ih =>
    cases rest with
    | nil =>
      rw [intercalate_singleton, ← mem_singleton.mp listed]
      exact inside
    | cons second rest =>
      rw [intercalate_cons first (cons_ne_nil _ _), mem_append, mem_cons]
      rcases mem_cons.mp listed with rfl | later
      · exact .inl inside
      · exact .inr (.inr (ih later))

theorem intercalate_append {front back : List (List α)} (some_ : front ≠ []) (some' : back ≠ []) :
    [sep].intercalate (front ++ back) = [sep].intercalate front ++ sep :: [sep].intercalate back := by
  induction front with
  | nil => exact absurd rfl some_
  | cons first rest ih =>
    cases rest with
    | nil =>
      rw [intercalate_singleton]
      exact intercalate_cons first some'
    | cons second rest =>
      have later := ih (cons_ne_nil _ _)
      rw [cons_append, intercalate_cons first (by simp), later, intercalate_cons first (cons_ne_nil _ _)]
      simp

theorem intercalate_concat (some_ : pieces ≠ []) (piece : List α) :
    [sep].intercalate (pieces ++ [piece]) = [sep].intercalate pieces ++ sep :: piece := by
  rw [intercalate_append some_ (cons_ne_nil _ _), intercalate_singleton]

theorem cut_last_unique {front' back back' : List α} (free : sep ∉ back) (free' : sep ∉ back')
    (same : front ++ sep :: back = front' ++ sep :: back') : front = front' ∧ back = back' := by
  rcases append_eq_append_iff.mp same with ⟨gap, shape, tail⟩ | ⟨gap, shape, tail⟩
  · cases gap with
    | nil => exact ⟨by rw [shape, append_nil], (List.cons.inj tail).2⟩
    | cons x gap =>
      have inside : sep ∈ back := by
        rw [(List.cons.inj tail).2]
        simp
      exact absurd inside free
  cases gap with
  | nil => exact ⟨by rw [shape, append_nil], (List.cons.inj tail).2.symm⟩
  | cons x gap =>
    have inside : sep ∈ back' := by
      rw [(List.cons.inj tail).2]
      simp
    exact absurd inside free'

section
variable {marker : α} {a b : List α}

/-! Words that a marker starts, put into the same text at two places. -/

theorem eq_of_shift (plain : marker ∉ a) (d : List α) (shift : a ++ marker :: d = d ++ marker :: b) : a = b := by
  induction long : d.length using Nat.strong_induction_on generalizing d with
  | _ n ih =>
    rcases append_eq_append_iff.mp shift with ⟨t, whole, rest⟩ | ⟨t, whole, rest⟩
    · cases t with
      | nil =>
        rw [append_nil] at whole
        exact whole.symm.trans (List.cons.inj rest).2
      | cons x t =>
        obtain ⟨rfl, shorter⟩ := List.cons.inj rest
        refine ih t.length ?_ t (whole.symm.trans shorter) rfl
        rw [← long, whole, length_append, length_cons]
        omega
    · cases t with
      | nil =>
        rw [append_nil] at whole
        exact whole.trans (List.cons.inj rest).2.symm
      | cons x t =>
        obtain ⟨rfl, -⟩ := List.cons.inj rest
        exact absurd (by simp [whole]) plain

theorem eq_of_moved {d : List α} (plain : marker ∉ a) (moved : marker :: a ++ d = d ++ marker :: b) : a = b := by
  cases d with
  | nil =>
    rw [append_nil] at moved
    exact (List.cons.inj moved).2
  | cons x d =>
    obtain ⟨rfl, rest⟩ := List.cons.inj moved
    exact eq_of_shift plain d rest

theorem eq_of_inserted {p q p' q' : List α} (plain : marker ∉ a) (plain' : marker ∉ b)
    (around : p ++ q = p' ++ q') (whole : p ++ marker :: a ++ q = p' ++ marker :: b ++ q') : a = b := by
  rcases append_eq_append_iff.mp around with ⟨d, rfl, rfl⟩ | ⟨d, rfl, rfl⟩
  · rw [append_assoc, append_assoc, append_assoc, append_cancel_left_eq, ← append_assoc,
      ← append_assoc, append_cancel_right_eq] at whole
    exact eq_of_moved plain whole
  · rw [append_assoc, append_assoc, append_assoc, append_cancel_left_eq, ← append_assoc,
      ← append_assoc, append_cancel_right_eq] at whole
    exact (eq_of_moved plain' whole.symm).symm
end

variable [DecidableEq α]

theorem not_mem_of_mem_splitOn (listed : piece ∈ xs.splitOn sep) : sep ∉ piece := by
  induction xs generalizing piece with
  | nil =>
    rw [splitOn_nil, mem_singleton] at listed
    simp [listed]
  | cons x xs ih =>
    rw [splitOn_cons_eq_if_modifyHead] at listed
    split at listed
    · rcases mem_cons.mp listed with rfl | later
      · simp
      · exact ih later
    rename_i other
    obtain ⟨first, rest, pieces⟩ := exists_cons_of_ne_nil (splitOn_ne_nil sep xs)
    rw [pieces, modifyHead_cons] at listed
    rw [pieces] at ih
    rcases mem_cons.mp listed with rfl | later
    · have here : sep ∉ first := ih (by simp)
      simpa [here] using fun same => other (by simp [same])
    · exact ih (by simp [later])

theorem mem_of_mem_splitOn (listed : piece ∈ xs.splitOn sep) (inside : x ∈ piece) : x ∈ xs := by
  have whole : [sep].intercalate (xs.splitOn sep) = xs := intercalate_splitOn sep
  rw [← whole]
  exact mem_intercalate_of_mem listed inside

theorem splitOn_append_free (free : sep ∉ front) (back : List α) :
    (front ++ sep :: back).splitOn sep = front :: back.splitOn sep := by
  rw [splitOn_append_cons_self, splitOn_eq_singleton free]
  rfl

theorem splitOn_map {f : α → α} (keeps : ∀ x, f x = sep ↔ x = sep) (xs : List α) :
    (xs.map f).splitOn sep = (xs.splitOn sep).map (·.map f) := by
  induction xs with
  | nil => rfl
  | cons x xs ih =>
    rw [map_cons, splitOn_cons_eq_if_modifyHead, splitOn_cons_eq_if_modifyHead, ih]
    obtain ⟨first, rest, pieces⟩ := exists_cons_of_ne_nil (splitOn_ne_nil sep xs)
    rw [pieces]
    by_cases same : x = sep
    · have mapped : f sep = sep := (keeps sep).mpr rfl
      simp [same, mapped]
    · have mapped : f x ≠ sep := fun other => same ((keeps x).mp other)
      simp [same, mapped]

theorem takeWhile_cut (listed : sep ∈ xs) : xs = xs.takeWhile (· ≠ sep) ++ sep :: (xs.dropWhile (· ≠ sep)).tail := by
  have rest : xs.dropWhile (· ≠ sep) ≠ [] := by
    intro none
    have all := dropWhile_eq_nil_iff.mp none sep listed
    simp at all
  have first : (xs.dropWhile (· ≠ sep)).head rest = sep := by
    simpa using head_dropWhile_not (· ≠ sep) rest
  have shape := (cons_head_tail rest).symm
  rw [first] at shape
  rw [← shape]
  exact takeWhile_append_dropWhile.symm

theorem not_mem_takeWhile (sep : α) (xs : List α) : sep ∉ xs.takeWhile (· ≠ sep) := by
  intro listed
  simpa using mem_takeWhile_imp listed

theorem takeWhile_append_cons (free : sep ∉ front) (back : List α) : (front ++ sep :: back).takeWhile (· ≠ sep) = front := by
  have other : ∀ x ∈ front, decide (x ≠ sep) = true := by
    intro x listed
    refine decide_eq_true ?_
    rintro rfl
    exact free listed
  rw [takeWhile_append_of_pos other]
  simp

theorem dropWhile_append_cons (free : sep ∉ front) (back : List α) :
    (front ++ sep :: back).dropWhile (· ≠ sep) = sep :: back := by
  have other : ∀ x ∈ front, decide (x ≠ sep) = true := by
    intro x listed
    refine decide_eq_true ?_
    rintro rfl
    exact free listed
  rw [dropWhile_append_of_pos other]
  simp

end Split
