import TypeScriptRs.Lib.Comparison
import TypeScriptRs.Lib.Split

/-! The pieces of lists between separators, and their order. -/
namespace Pieces
open Comparison List

variable {α : Type} [DecidableEq α] {sep : α}

def trim (pieces : List (List α)) : List (List α) := if pieces.getLast? = some [] then pieces.dropLast else pieces

def pieces (sep : α) (xs : List α) : List (List α) := trim (xs.splitOn sep)

def below (sep : α) (xs : List α) : List (List α) := (xs.splitOn sep).headD [] :: trim (xs.splitOn sep).tail

def Filled (sep : α) (xs : List α) : Prop := [] ∉ (xs.splitOn sep).dropLast

def FilledBelow (sep : α) (xs : List α) : Prop := [] ∉ (xs.splitOn sep).tail.dropLast

section
variable {x : α} {xs : List α}

theorem trim_cons (piece : List α) {rest : List (List α)} (some_ : piece ≠ [] ∨ rest ≠ []) :
    trim (piece :: rest) = piece :: trim rest := by
  cases rest with
  | nil =>
    have filled := some_.resolve_right (by simp)
    simp [trim, filled]
  | cons next rest =>
    unfold trim
    rw [List.getLast?_cons_cons]
    split
    · rw [dropLast_cons_of_ne_nil (cons_ne_nil _ _)]
    · rfl

theorem splitOn_sep (xs : List α) : (sep :: xs).splitOn sep = [] :: xs.splitOn sep := by
  rw [splitOn_cons_eq_if_modifyHead, if_pos (beq_self_eq_true sep)]

theorem splitOn_other (other : x ≠ sep) {first : List α} {rest : List (List α)} (shape : xs.splitOn sep = first :: rest) :
    (x :: xs).splitOn sep = (x :: first) :: rest := by
  rw [splitOn_cons_eq_if_modifyHead, if_neg (by simpa using other), shape]
  rfl

theorem pieces_nil : pieces sep [] = [] := by
  rfl

theorem below_nil : below sep [] = [[]] := by
  rfl

theorem below_sep (xs : List α) : below sep (sep :: xs) = [] :: pieces sep xs := by
  unfold below pieces
  rw [splitOn_sep]
  rfl

theorem below_other (other : x ≠ sep) (xs : List α) :
    ∃ first rest, below sep xs = first :: rest ∧ below sep (x :: xs) = (x :: first) :: rest := by
  obtain ⟨first, rest, shape⟩ := exists_cons_of_ne_nil (splitOn_ne_nil sep xs)
  refine ⟨first, trim rest, ?_, ?_⟩
  · unfold below
    rw [shape]
    rfl
  · unfold below
    rw [splitOn_other other shape]
    rfl

theorem pieces_other (other : x ≠ sep) (xs : List α) : pieces sep (x :: xs) = below sep (x :: xs) := by
  obtain ⟨first, rest, shape⟩ := exists_cons_of_ne_nil (splitOn_ne_nil sep xs)
  unfold pieces below
  rw [splitOn_other other shape]
  exact trim_cons _ (.inl (cons_ne_nil _ _))

theorem pieces_eq_nil_iff : pieces sep xs = [] ↔ xs = [] := by
  constructor
  · intro none
    cases xs with
    | nil => rfl
    | cons x xs =>
      by_cases here : x = sep
      · rw [here, pieces, splitOn_sep, trim_cons [] (.inr (splitOn_ne_nil sep xs))] at none
        cases none
      · rw [pieces_other here] at none
        cases none
  · rintro rfl
    exact pieces_nil

theorem filledBelow_sep : FilledBelow sep (sep :: xs) ↔ Filled sep xs := by
  unfold FilledBelow Filled
  rw [splitOn_sep]
  rfl

theorem filledBelow_other (other : x ≠ sep) : FilledBelow sep (x :: xs) ↔ FilledBelow sep xs := by
  obtain ⟨first, rest, shape⟩ := exists_cons_of_ne_nil (splitOn_ne_nil sep xs)
  unfold FilledBelow
  rw [splitOn_other other shape, shape]
  rfl

theorem Filled.other (filled : Filled sep (x :: xs)) : x ≠ sep := by
  rintro rfl
  refine filled ?_
  rw [splitOn_sep, dropLast_cons_of_ne_nil (splitOn_ne_nil x xs)]
  exact mem_cons_self

theorem Filled.below (filled : Filled sep xs) : FilledBelow sep xs := by
  unfold Filled at filled
  unfold FilledBelow
  obtain ⟨first, rest, shape⟩ := exists_cons_of_ne_nil (splitOn_ne_nil sep xs)
  rw [shape] at filled ⊢
  intro listed
  cases rest with
  | nil => cases listed
  | cons next rest =>
    exact filled (mem_cons_of_mem _ listed)
end

section
variable {cmp : α → α → Ordering}

/-- Where the lists part, a separator comes before the other element, and it does not end just one of them. -/
def alike (cmp : α → α → Ordering) (sep : α) : List α → List α → Bool
  | [], [] => true
  | [], y :: ys => !(y = sep && ys = [])
  | x :: xs, [] => !(x = sep && xs = [])
  | x :: xs, y :: ys =>
    if x = y then alike cmp sep xs ys
    else if x = sep then cmp x y = .lt
    else if y = sep then cmp x y = .gt
    else true

theorem then_of_ne {order : Ordering} (differs : order ≠ .eq) (rest : Ordering) : order.then rest = order := by
  cases order with
  | eq => exact absurd rfl differs
  | lt => rfl
  | gt => rfl

theorem ends_below {y : α} {ys : List α} :
    (List.compareLex (List.compareLex cmp) (below sep []) (below sep (y :: ys)) = .lt ↔ alike cmp sep [] (y :: ys) = true) ∧
    (List.compareLex (List.compareLex cmp) (below sep (y :: ys)) (below sep []) = .gt ↔ alike cmp sep (y :: ys) [] = true) := by
  rw [below_nil]
  unfold alike
  by_cases here : y = sep
  · have same : List.compareLex cmp [] [] = .eq := rfl
    rw [here, below_sep, List.compareLex_cons_cons, List.compareLex_cons_cons, same]
    by_cases none : ys = []
    · rw [none, pieces_nil]
      simp [List.compareLex]
    · have some_ : pieces sep ys ≠ [] := mt pieces_eq_nil_iff.mp none
      simp [none, List.compareLex]
  · obtain ⟨first, rest, -, shape⟩ := below_other here ys
    rw [shape]
    simp [here, List.compareLex]

theorem parts_below (exact_ : ∀ a b, cmp a b = .eq ↔ a = b) {x y : α} (differs : x ≠ y) (xs ys : List α) :
    List.compareLex (List.compareLex cmp) (below sep (x :: xs)) (below sep (y :: ys)) = cmp x y ↔
      alike cmp sep (x :: xs) (y :: ys) = true := by
  have unequal : cmp x y ≠ .eq := fun same => differs ((exact_ x y).mp same)
  unfold alike
  rw [if_neg differs]
  by_cases left : x = sep
  · have right : y ≠ sep := fun same => differs (left.trans same.symm)
    obtain ⟨first, rest, -, shape⟩ := below_other right ys
    rw [if_pos left, left, below_sep, shape, List.compareLex_cons_cons, List.compareLex_nil_cons, decide_eq_true_iff]
    exact eq_comm
  obtain ⟨first, rest, -, shape⟩ := below_other left xs
  rw [if_neg left, shape]
  by_cases right : y = sep
  · rw [if_pos right, right, below_sep, List.compareLex_cons_cons, List.compareLex_cons_nil, decide_eq_true_iff]
    exact eq_comm
  · obtain ⟨first', rest', -, shape'⟩ := below_other right ys
    rw [if_neg right, shape', List.compareLex_cons_cons, List.compareLex_cons_cons, then_of_ne unequal, then_of_ne unequal]
    simp

theorem compareLex_below (exact_ : ∀ a b, cmp a b = .eq ↔ a = b) (xs ys : List α) :
    (FilledBelow sep xs → FilledBelow sep ys → (List.compareLex (List.compareLex cmp) (below sep xs) (below sep ys) =
      List.compareLex cmp xs ys ↔ alike cmp sep xs ys = true)) ∧
    (Filled sep xs → Filled sep ys → (List.compareLex (List.compareLex cmp) (pieces sep xs) (pieces sep ys) =
      List.compareLex cmp xs ys ↔ alike cmp sep xs ys = true)) := by
  induction xs generalizing ys with
  | nil =>
    cases ys with
    | nil => exact ⟨fun _ _ => by simp [below_nil, List.compareLex, alike], fun _ _ => by simp [pieces_nil, List.compareLex, alike]⟩
    | cons y ys =>
      refine ⟨fun _ _ => ends_below.1, fun _ filled => ?_⟩
      have other := filled.other
      obtain ⟨first, rest, -, shape⟩ := below_other other ys
      rw [pieces_nil, pieces_other other, shape]
      simp [List.compareLex, alike, other]
  | cons x xs ih =>
    cases ys with
    | nil =>
      refine ⟨fun _ _ => ends_below.2, fun filled _ => ?_⟩
      have other := filled.other
      obtain ⟨first, rest, -, shape⟩ := below_other other xs
      rw [pieces_nil, pieces_other other, shape]
      simp [List.compareLex, alike, other]
    | cons y ys =>
      have inside : FilledBelow sep (x :: xs) → FilledBelow sep (y :: ys) →
          (List.compareLex (List.compareLex cmp) (below sep (x :: xs)) (below sep (y :: ys)) =
            List.compareLex cmp (x :: xs) (y :: ys) ↔ alike cmp sep (x :: xs) (y :: ys) = true) := by
        intro filled filled'
        by_cases same : x = y
        · have equal : cmp y y = .eq := (exact_ y y).mpr rfl
          rw [same] at filled ⊢
          rw [List.compareLex_cons_cons, equal, alike, if_pos rfl]
          by_cases here : y = sep
          · rw [here] at filled filled' ⊢
            have nothing : List.compareLex cmp [] [] = .eq := rfl
            rw [below_sep, below_sep, List.compareLex_cons_cons, nothing]
            exact (ih ys).2 (filledBelow_sep.mp filled) (filledBelow_sep.mp filled')
          obtain ⟨first, rest, before, shape⟩ := below_other here xs
          obtain ⟨first', rest', before', shape'⟩ := below_other here ys
          have later := (ih ys).1 ((filledBelow_other here).mp filled) ((filledBelow_other here).mp filled')
          rw [before, before', List.compareLex_cons_cons] at later
          rw [shape, shape', List.compareLex_cons_cons, List.compareLex_cons_cons, equal]
          exact later
        · rw [List.compareLex_cons_cons, then_of_ne fun equal => same ((exact_ x y).mp equal)]
          exact parts_below exact_ same xs ys
      refine ⟨inside, fun filled filled' => ?_⟩
      rw [pieces_other filled.other, pieces_other filled'.other]
      exact inside filled.below filled'.below
end

theorem splitOn_flatMap {f : α → List α} (keeps : f sep = [sep]) (free : ∀ x, x ≠ sep → sep ∉ f x) (xs : List α) :
    (xs.flatMap f).splitOn sep = (xs.splitOn sep).map (List.flatMap f) := by
  induction xs with
  | nil => rfl
  | cons x xs ih =>
    obtain ⟨first, rest, shape⟩ := exists_cons_of_ne_nil (splitOn_ne_nil sep xs)
    rw [flatMap_cons]
    by_cases here : x = sep
    · rw [here, keeps, singleton_append, splitOn_sep, splitOn_sep, ih]
      rfl
    rw [splitOn_other here shape, map_cons, flatMap_cons]
    rw [shape, map_cons] at ih
    have none := free x here
    generalize f x = part at none
    induction part with
    | nil => exact ih
    | cons c part ih' =>
      have other : c ≠ sep := fun same => none (by rw [same]; simp)
      exact splitOn_other other (ih' fun listed => none (mem_cons_of_mem _ listed))

variable {f : α → List α}

omit [DecidableEq α] in
theorem flatMap_eq_nil (filled : ∀ x, f x ≠ []) (piece : List α) : piece.flatMap f = [] ↔ piece = [] := by
  cases piece with
  | nil => simp
  | cons x piece => simp [filled x]

theorem trim_map {g : List α → List α} (filled : ∀ piece, g piece = [] ↔ piece = []) (pieces : List (List α)) :
    trim (pieces.map g) = (trim pieces).map g := by
  have same : (pieces.map g).getLast? = some [] ↔ pieces.getLast? = some [] := by
    rw [List.getLast?_map]
    cases pieces.getLast? with
    | none => rfl
    | some piece => rw [Option.map_some, Option.some.injEq, Option.some.injEq, filled]
  unfold trim
  by_cases last : pieces.getLast? = some []
  · rw [if_pos last, if_pos (same.mpr last), map_dropLast]
  · rw [if_neg last, if_neg (mt same.mp last)]

variable (keeps : f sep = [sep]) (free : ∀ x, x ≠ sep → sep ∉ f x) (filled : ∀ x, f x ≠ [])
include keeps free filled

theorem pieces_flatMap (xs : List α) : pieces sep (xs.flatMap f) = (pieces sep xs).map (List.flatMap f) := by
  unfold pieces
  rw [splitOn_flatMap keeps free, trim_map (flatMap_eq_nil filled)]

theorem Filled.flatMap {xs : List α} (whole : Filled sep xs) : Filled sep (xs.flatMap f) := by
  unfold Filled
  rw [splitOn_flatMap keeps free, ← map_dropLast]
  intro listed
  obtain ⟨piece, inside, none⟩ := mem_map.mp listed
  exact whole ((flatMap_eq_nil filled piece).mp none ▸ inside)

end Pieces
