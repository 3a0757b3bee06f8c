import Mathlib.Data.List.Basic

/-! Trees as a table in preorder, with a writer that enters a sibling when it comes to it. -/
namespace Preorder
open List

variable {α : Type}

inductive Rose (α : Type) where
  | node (label : α) (children : List (Rose α))

mutual
def Rose.size : Rose α → Nat
  | .node _ children => 1 + sizes children

def sizes : List (Rose α) → Nat
  | [] => 0
  | t :: ts => t.size + sizes ts
end

structure Row (α : Type) where
  label : α
  parent : Nat
  next : Nat
  deriving DecidableEq

-- the rows of a tree whose root is row `index`, below row `parent` and before row `next`
mutual
def Rose.rows (index parent next : Nat) : Rose α → List (Row α)
  | .node label children => ⟨label, parent, next⟩ :: forestRows (index + 1) index children

def forestRows (index parent : Nat) : List (Rose α) → List (Row α)
  | [] => []
  | t :: ts => t.rows index parent (if ts.isEmpty then 0 else index + t.size) ++ forestRows (index + t.size) parent ts
end

mutual
theorem Rose.length_rows (t : Rose α) (index parent next : Nat) : (t.rows index parent next).length = t.size := by
  cases t with
  | node label children =>
    rw [Rose.rows, Rose.size, length_cons, length_forestRows children, Nat.add_comm]

theorem length_forestRows (ts : List (Rose α)) (index parent : Nat) : (forestRows index parent ts).length = sizes ts := by
  cases ts with
  | nil => rfl
  | cons t ts =>
    rw [forestRows, sizes, length_append, t.length_rows, length_forestRows ts]
end

theorem Rose.size_pos (t : Rose α) : 0 < t.size := by
  cases t with
  | node label children =>
    rw [Rose.size]
    omega

theorem mem_forestRows {ts : List (Rose α)} {index parent : Nat} {row : Row α} (listed : row ∈ forestRows index parent ts) :
    ∃ t ∈ ts, ∃ i next, row ∈ t.rows i parent next := by
  induction ts generalizing index with
  | nil => cases listed
  | cons t ts ih =>
    rcases mem_append.mp listed with here | later
    · exact ⟨t, by simp, _, _, here⟩
    · obtain ⟨t', member, found⟩ := ih later
      exact ⟨t', by simp [member], found⟩

mutual
theorem Rose.refers_lt (t : Rose α) {index parent next bound : Nat} (last : index + t.size ≤ bound) (above : parent < bound)
    (after : next < bound) : ∀ row ∈ t.rows index parent next, row.parent < bound ∧ row.next < bound := by
  cases t with
  | node label children =>
    rw [Rose.size] at last
    intro row listed
    rcases mem_cons.mp listed with rfl | below
    · exact ⟨above, after⟩
    · exact forest_refers_lt children (by omega) (by omega) row below

theorem forest_refers_lt (ts : List (Rose α)) {index parent bound : Nat} (last : index + sizes ts ≤ bound)
    (above : parent < bound) : ∀ row ∈ forestRows index parent ts, row.parent < bound ∧ row.next < bound := by
  cases ts with
  | nil =>
    intro row listed
    cases listed
  | cons t ts =>
    rw [sizes] at last
    intro row listed
    rcases mem_append.mp listed with here | later
    · refine t.refers_lt (by omega) above ?_ row here
      split
      · omega
      rename_i some_
      cases ts with
      | nil => exact absurd rfl some_
      | cons u us =>
        have positive := u.size_pos
        rw [sizes] at last
        omega
    · exact forest_refers_lt ts (by omega) above row later
end

theorem Rose.rows_eq_cons (t : Rose α) (index parent : Nat) : ∃ label rest, ∀ next,
    t.rows index parent next = ⟨label, parent, next⟩ :: rest := by
  cases t with
  | node label children => exact ⟨label, _, fun _ => rfl⟩

/-- Rows written so far, the row of the parent, and the row of the sibling before. -/
structure Writer (α : Type) where
  rows : List (Row α)
  parent : Nat
  prev : Nat

def link (rows : List (Row α)) (prev next : Nat) : List (Row α) :=
  if prev = 0 then rows else rows.modify prev fun row => { row with next := next }

def Writer.push (w : Writer α) (label : α) : Writer α :=
  { w with rows := link w.rows w.prev w.rows.length ++ [⟨label, w.parent, 0⟩], parent := w.rows.length, prev := 0 }

def Writer.leave (w : Writer α) (index parent : Nat) : Writer α := { w with parent := parent, prev := index }

mutual
def Writer.visit (w : Writer α) : Rose α → Writer α
  | .node label children => ((w.push label).visitAll children).leave w.rows.length w.parent

def Writer.visitAll (w : Writer α) : List (Rose α) → Writer α
  | [] => w
  | t :: ts => (w.visit t).visitAll ts
end

@[simp] theorem link_zero (rows : List (Row α)) (next : Nat) : link rows 0 next = rows := rfl

@[simp] theorem length_link (rows : List (Row α)) (prev next : Nat) : (link rows prev next).length = rows.length := by
  unfold link
  split <;> simp

theorem modify_append_length (rows more : List α) (f : α → α) (row : α) :
    (rows ++ row :: more).modify rows.length f = rows ++ f row :: more := by
  induction rows with
  | nil => rfl
  | cons first rows ih => simp [ih]

theorem link_tree (t : Rose α) (rows : List (Row α)) (some_ : rows.length ≠ 0) (parent next : Nat) :
    link (rows ++ t.rows rows.length parent 0) rows.length next = rows ++ t.rows rows.length parent next := by
  obtain ⟨label, rest, shape⟩ := t.rows_eq_cons rows.length parent
  rw [shape, shape, link, if_neg some_]
  exact modify_append_length rows rest _ _

/-- What a visit of a forest leaves in the table: the link from the sibling before, and the rows of the forest. -/
def linkFirst (w : Writer α) (ts : List (Rose α)) : List (Row α) :=
  if ts.isEmpty then w.rows else link w.rows w.prev w.rows.length

theorem linkFirst_push (w : Writer α) (label : α) (ts : List (Rose α)) :
    linkFirst (w.push label) ts = link w.rows w.prev w.rows.length ++ [⟨label, w.parent, 0⟩] := by
  unfold linkFirst
  split <;> rfl

mutual
theorem Writer.visit_rows (w : Writer α) (t : Rose α) :
    (w.visit t).rows = link w.rows w.prev w.rows.length ++ t.rows w.rows.length w.parent 0 ∧
      (w.visit t).parent = w.parent ∧ (w.visit t).prev = w.rows.length := by
  cases t with
  | node label children =>
    have below := (w.push label).visitAll_rows children (by simp [push])
    rw [linkFirst_push] at below
    refine ⟨?_, rfl, rfl⟩
    have length : (w.push label).rows.length = w.rows.length + 1 := by simp [push]
    have parent : (w.push label).parent = w.rows.length := rfl
    rw [visit, leave, below, length, parent, Rose.rows, append_assoc]
    rfl

theorem Writer.visitAll_rows (w : Writer α) (ts : List (Rose α)) (started : 0 < w.rows.length) :
    (w.visitAll ts).rows = linkFirst w ts ++ forestRows w.rows.length w.parent ts := by
  cases ts with
  | nil => simp [visitAll, linkFirst, forestRows]
  | cons t ts =>
    obtain ⟨rows, parent, prev⟩ := w.visit_rows t
    have length : (w.visit t).rows.length = w.rows.length + t.size := by
      rw [rows, length_append, length_link, t.length_rows]
    have later := (w.visit t).visitAll_rows ts (by omega)
    rw [visitAll, later, length, parent, forestRows, ← append_assoc]
    congr 1
    rw [linkFirst, linkFirst, if_neg (show ¬(t :: ts).isEmpty = true by simp), length, prev, rows]
    split
    · rfl
    · have here : (link w.rows w.prev w.rows.length).length = w.rows.length := length_link _ _ _
      have linked := link_tree t (link w.rows w.prev w.rows.length) (by omega) w.parent (w.rows.length + t.size)
      rw [here] at linked
      exact linked
end

theorem Writer.visitAll_append (w : Writer α) (ts us : List (Rose α)) : w.visitAll (ts ++ us) = (w.visitAll ts).visitAll us := by
  induction ts generalizing w with
  | nil => rfl
  | cons t ts ih =>
    rw [cons_append, visitAll, visitAll, ih]

theorem Writer.length_visit (w : Writer α) (t : Rose α) : (w.visit t).rows.length = w.rows.length + t.size := by
  rw [(w.visit_rows t).1, length_append, length_link, t.length_rows]

theorem Writer.length_visitAll (w : Writer α) (ts : List (Rose α)) : (w.visitAll ts).rows.length = w.rows.length + sizes ts := by
  induction ts generalizing w with
  | nil => rfl
  | cons t ts ih => rw [visitAll, ih, w.length_visit, sizes, Nat.add_assoc]

theorem sizes_append (ts us : List (Rose α)) : sizes (ts ++ us) = sizes ts + sizes us := by
  induction ts with
  | nil => simp [sizes]
  | cons t ts ih => rw [cons_append, sizes, sizes, ih, Nat.add_assoc]

end Preorder
