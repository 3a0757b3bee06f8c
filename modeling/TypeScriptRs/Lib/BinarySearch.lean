import Mathlib.Order.Lattice
import Mathlib.Data.List.Basic

/-! Binary search by halving a window. -/
namespace BinarySearch
open List

variable {α : Type} [LinearOrder α] [Inhabited α]

/-- The last index of the window whose entry is not above the target, as the window from
`base` on is halved until one entry is left. -/
def narrow (xs : List α) (target : α) : Nat → Nat → Nat → Nat
  | 0, base, _ => base
  | fuel + 1, base, size =>
    if 1 < size then
      let half := size / 2
      let mid := base + half
      narrow xs target fuel (if target < xs.getD mid default then base else mid) (size - half)
    else base

/-- The index of the target, or else the index it would be inserted at. -/
def search (xs : List α) (target : α) : Except Nat Nat :=
  if xs = [] then .error 0
  else
    let base := narrow xs target xs.length 0 xs.length
    if xs.getD base default = target then .ok base
    else .error (if xs.getD base default < target then base + 1 else base)

variable {front back : List α} {target : α}

theorem getD_le (low : ∀ a ∈ front, a ≤ target) {i : Nat} (inside : i < front.length) :
    (front ++ back).getD i default ≤ target := by
  rw [getD_eq_getElem?_getD, List.getElem?_append_left inside, List.getElem?_eq_getElem inside]
  exact low _ (getElem_mem inside)

theorem lt_getD (high : ∀ b ∈ back, target < b) {i : Nat} (outside : front.length ≤ i)
    (inside : i < (front ++ back).length) : target < (front ++ back).getD i default := by
  have here : i - front.length < back.length := by
    rw [length_append] at inside
    omega
  rw [getD_eq_getElem?_getD, List.getElem?_append_right outside, List.getElem?_eq_getElem here]
  exact high _ (getElem_mem here)

theorem narrow_eq (low : ∀ a ∈ front, a ≤ target) (high : ∀ b ∈ back, target < b) :
    ∀ fuel base size, size ≤ fuel + 1 → base < front.length → front.length ≤ base + size →
      base + size ≤ (front ++ back).length → narrow (front ++ back) target fuel base size + 1 = front.length := by
  intro fuel
  induction fuel with
  | zero =>
    intro base size enough start stop inside
    rw [narrow]
    omega
  | succ fuel ih =>
    intro base size enough start stop inside
    rw [narrow]
    by_cases more : 1 < size
    · rw [if_pos more]
      by_cases above : target < (front ++ back).getD (base + size / 2) default
      · have outside : front.length ≤ base + size / 2 :=
          Nat.le_of_not_lt fun here => absurd (getD_le low here) (not_le_of_gt above)
        simp only [if_pos above]
        exact ih base (size - size / 2) (by omega) start (by omega) (by omega)
      · have here : base + size / 2 < front.length :=
          Nat.lt_of_not_le fun outside => above (lt_getD high outside (by omega))
        simp only [if_neg above]
        exact ih (base + size / 2) (size - size / 2) (by omega) here (by omega) (by omega)
    · rw [if_neg more]
      omega

theorem search_append (low : ∀ a ∈ front, a ≤ target) (high : ∀ b ∈ back, target < b) (some_ : front ≠ []) :
    search (front ++ back) target = .ok (front.length - 1) ∨ search (front ++ back) target = .error front.length := by
  have filled : 0 < front.length := length_pos_of_ne_nil some_
  have last := narrow_eq low high (front ++ back).length 0 (front ++ back).length (by omega) filled
    (by simp) (by simp)
  have base : narrow (front ++ back) target (front ++ back).length 0 (front ++ back).length = front.length - 1 := by
    omega
  have below : (front ++ back).getD (front.length - 1) default ≤ target := getD_le low (by omega)
  unfold search
  rw [if_neg (by simp [some_])]
  simp only [base]
  by_cases same : (front ++ back).getD (front.length - 1) default = target
  · exact .inl (if_pos same)
  · refine .inr ?_
    rw [if_neg same, if_pos (lt_of_le_of_ne below same)]
    congr 1
    omega

end BinarySearch
