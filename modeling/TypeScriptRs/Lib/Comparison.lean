import Mathlib.Data.List.Sort

/-! Comparison functions made of others, and the runs of equal elements in a sorted list. -/
namespace Comparison
open List

variable {α : Type} {x y z : Ordering} {cmp cmp' : α → α → Ordering} {l : List α} {a : α}

/-- The outcome for `a` and `c` fits those for `a` and `b` and for `b` and `c`. -/
def Composes : Ordering → Ordering → Ordering → Prop
  | .eq, y, z => z = y
  | .lt, .gt, _ | .gt, .lt, _ => True
  | x, _, z => z = x

instance (x y z : Ordering) : Decidable (Composes x y z) := by
  cases x <;> cases y <;> unfold Composes <;> infer_instance

theorem Composes.then {x' y' z' : Ordering} (first : Composes x y z)
    (rest : x = .eq → y = .eq → Composes x' y' z') : Composes (x.then x') (y.then y') (z.then z') := by
  cases x with
  | eq =>
    obtain rfl : z = y := first
    cases z with
    | eq => exact rest rfl rfl
    | lt => cases x' <;> trivial
    | gt => cases x' <;> trivial
  | lt =>
    cases y with
    | gt => trivial
    | lt =>
      obtain rfl : z = .lt := first
      rfl
    | eq =>
      obtain rfl : z = .lt := first
      cases y' <;> trivial
  | gt =>
    cases y with
    | lt => trivial
    | gt =>
      obtain rfl : z = .gt := first
      rfl
    | eq =>
      obtain rfl : z = .gt := first
      cases y' <;> trivial

theorem Composes.le (fits : Composes x y z) (first : x ≠ .gt) (second : y ≠ .gt) : z ≠ .gt := by
  cases x with
  | gt => exact absurd rfl first
  | eq => exact (show z = y from fits) ▸ second
  | lt =>
    cases y with
    | gt => exact absurd rfl second
    | lt | eq =>
      obtain rfl : z = .lt := fits
      decide

theorem Composes.lt_of_lt_of_le (fits : Composes x y z) (first : x = .lt) (second : y ≠ .gt) : z = .lt := by
  subst first
  cases y with
  | gt => exact absurd rfl second
  | lt | eq => exact fits

theorem composes_compare [LinearOrder α] (a b c : α) : Composes (compare a b) (compare b c) (compare a c) := by
  cases first : compare a b with
  | eq =>
    obtain rfl := compare_eq_iff_eq.mp first
    rfl
  | lt =>
    rw [compare_lt_iff_lt] at first
    cases second : compare b c with
    | gt => trivial
    | lt => exact compare_lt_iff_lt.mpr (first.trans (compare_lt_iff_lt.mp second))
    | eq => exact compare_lt_iff_lt.mpr (compare_eq_iff_eq.mp second ▸ first)
  | gt =>
    rw [compare_gt_iff_gt] at first
    cases second : compare b c with
    | lt => trivial
    | gt => exact compare_gt_iff_gt.mpr ((compare_gt_iff_gt.mp second).trans first)
    | eq => exact compare_gt_iff_gt.mpr (compare_eq_iff_eq.mp second ▸ first)

theorem compare_swap [LinearOrder α] (a b : α) : compare b a = (compare a b).swap := by
  cases first : compare a b with
  | eq => exact compare_eq_iff_eq.mpr (compare_eq_iff_eq.mp first).symm
  | lt => exact compare_gt_iff_gt.mpr (compare_lt_iff_lt.mp first)
  | gt => exact compare_lt_iff_lt.mpr (compare_gt_iff_gt.mp first)

theorem composes_compare_reverse [LinearOrder α] (a b c : α) : Composes (compare b a) (compare c b) (compare c a) := by
  have forward := composes_compare a b c
  rw [compare_swap a b, compare_swap b c, compare_swap a c]
  revert forward
  generalize compare a b = x
  generalize compare b c = y
  generalize compare a c = z
  cases x <;> cases y <;> cases z <;> decide

structure Lawful (cmp : α → α → Ordering) : Prop where
  swap : ∀ a b, cmp b a = (cmp a b).swap
  composes : ∀ a b c, Composes (cmp a b) (cmp b c) (cmp a c)

theorem Lawful.refl (lawful : Lawful cmp) (a : α) : cmp a a = .eq := by
  have same := lawful.swap a a
  cases value : cmp a a with
  | eq => rfl
  | lt =>
    rw [value] at same
    cases same
  | gt =>
    rw [value] at same
    cases same

theorem lawful_compare [LinearOrder α] : Lawful (compare : α → α → Ordering) := ⟨compare_swap, composes_compare⟩

theorem Lawful.on {β : Type} (lawful : Lawful cmp) (key : β → α) : Lawful fun b b' => cmp (key b) (key b') :=
  ⟨fun _ _ => lawful.swap _ _, fun _ _ _ => lawful.composes _ _ _⟩

theorem Lawful.then (lawful : Lawful cmp) (lawful' : Lawful cmp') : Lawful fun a b => (cmp a b).then (cmp' a b) := by
  refine ⟨fun a b => ?_, fun a b c => (lawful.composes a b c).then fun _ _ => lawful'.composes a b c⟩
  rw [lawful.swap a b, lawful'.swap a b]
  cases cmp a b <;> rfl

theorem Lawful.lex (lawful : Lawful cmp) : Lawful (List.compareLex cmp) := by
  refine ⟨fun as => ?_, fun as => ?_⟩
  · induction as with
    | nil =>
      intro bs
      cases bs <;> rfl
    | cons a as ih =>
      intro bs
      cases bs with
      | nil => rfl
      | cons b bs =>
        rw [List.compareLex_cons_cons, List.compareLex_cons_cons, lawful.swap a b, ih bs]
        cases cmp a b <;> rfl
  induction as with
  | nil =>
    intro bs cs
    cases bs with
    | nil => rfl
    | cons b bs =>
      cases cs with
      | nil => trivial
      | cons c cs =>
        rw [List.compareLex_nil_cons, List.compareLex_nil_cons]
        cases List.compareLex cmp (b :: bs) (c :: cs) <;> trivial
  | cons a as ih =>
    intro bs cs
    cases bs with
    | nil =>
      cases cs with
      | nil => rfl
      | cons c cs => trivial
    | cons b bs =>
      cases cs with
      | nil =>
        rw [List.compareLex_cons_nil, List.compareLex_cons_nil]
        cases List.compareLex cmp (a :: as) (b :: bs) <;> trivial
      | cons c cs =>
        rw [List.compareLex_cons_cons, List.compareLex_cons_cons, List.compareLex_cons_cons]
        exact (lawful.composes a b c).then fun _ _ => ih bs cs

theorem compareLex_eq_iff (exact_ : ∀ a b, cmp a b = .eq ↔ a = b) (as bs : List α) :
    List.compareLex cmp as bs = .eq ↔ as = bs := by
  induction as generalizing bs with
  | nil => cases bs <;> simp [List.compareLex]
  | cons a as ih =>
    cases bs with
    | nil => simp [List.compareLex]
    | cons b bs => rw [List.compareLex_cons_cons, Ordering.then_eq_eq, exact_, ih, List.cons.injEq]

section
/-- A comparison with a quicker way for elements that allow it. -/
def withShortcut (plain : α → Bool) (fast slow : α → α → Ordering) (a b : α) : Ordering :=
  if plain a && plain b then fast a b else slow a b

/-- On a set, a comparison that sorts and does not tell an element from its normal form. -/
structure OrdersNormally (S : Set α) (norm : α → α) (cmp : α → α → Ordering) : Prop where
  swap : ∀ a ∈ S, ∀ b ∈ S, cmp b a = (cmp a b).swap
  trans : ∀ a ∈ S, ∀ b ∈ S, ∀ c ∈ S, cmp a b ≠ .gt → cmp b c ≠ .gt → cmp a c ≠ .gt
  left : ∀ a ∈ S, ∀ b ∈ S, cmp (norm a) b = cmp a b
  right : ∀ a ∈ S, ∀ b ∈ S, cmp a (norm b) = cmp a b

variable {S : Set α} {norm : α → α} {plain : α → Bool} {fast slow : α → α → Ordering}

theorem OrdersNormally.congr {cmp cmp' : α → α → Ordering} (orders : OrdersNormally S norm cmp)
    (both : ∀ a ∈ S, ∀ b ∈ S, cmp a b = cmp' a b) (left : ∀ a ∈ S, ∀ b ∈ S, cmp (norm a) b = cmp' (norm a) b)
    (right : ∀ a ∈ S, ∀ b ∈ S, cmp a (norm b) = cmp' a (norm b)) : OrdersNormally S norm cmp' := by
  refine ⟨fun a a_ b b_ => ?_, fun a a_ b b_ c c_ => ?_, fun a a_ b b_ => ?_, fun a a_ b b_ => ?_⟩
  · rw [← both b b_ a a_, ← both a a_ b b_]
    exact orders.swap a a_ b b_
  · rw [← both a a_ b b_, ← both b b_ c c_, ← both a a_ c c_]
    exact orders.trans a a_ b b_ c c_
  · rw [← left a a_ b b_, ← both a a_ b b_]
    exact orders.left a a_ b b_
  · rw [← right a a_ b b_, ← both a a_ b b_]
    exact orders.right a a_ b b_

variable (lawful : Lawful fast) (lawful' : Lawful slow)
include lawful lawful'

theorem withShortcut_swap (a b : α) : withShortcut plain fast slow b a = (withShortcut plain fast slow a b).swap := by
  unfold withShortcut
  rw [Bool.and_comm]
  split
  · exact lawful.swap a b
  · exact lawful'.swap a b

theorem composes_withShortcut (bridge : ∀ a ∈ S, ∀ b ∈ S, plain a = false → plain b = true → fast (norm a) b = slow a b)
    {a b c : α} (a_ : a ∈ S) (b_ : b ∈ S) (c_ : c ∈ S) :
    Composes (withShortcut plain fast slow a b) (withShortcut plain fast slow b c) (withShortcut plain fast slow a c) := by
  have back : ∀ a ∈ S, ∀ b ∈ S, plain a = false → plain b = true → fast b (norm a) = slow b a := by
    intro a a_ b b_ rough smooth
    rw [lawful.swap (norm a) b, lawful'.swap a b, bridge a a_ b b_ rough smooth]
  unfold withShortcut
  cases first : plain a with
  | true =>
    cases second : plain b with
    | true =>
      cases third : plain c with
      | true => exact lawful.composes a b c
      | false =>
        have fits := lawful.composes a b (norm c)
        rwa [back c c_ b b_ third second, back c c_ a a_ third first] at fits
    | false =>
      cases third : plain c with
      | true =>
        have fits := lawful.composes a (norm b) c
        rwa [back b b_ a a_ second first, bridge b b_ c c_ second third] at fits
      | false => exact lawful'.composes a b c
  | false =>
    cases second : plain b with
    | true =>
      cases third : plain c with
      | true =>
        have fits := lawful.composes (norm a) b c
        rwa [bridge a a_ b b_ first second, bridge a a_ c c_ first third] at fits
      | false => exact lawful'.composes a b c
    | false => exact lawful'.composes a b c

/-- Where normal forms take the quick way, and normalizing changes no place in either order, nothing else is needed. -/
theorem ordersNormally_iff (normal : ∀ a ∈ S, plain (norm a) = true)
    (fixed : ∀ a ∈ S, plain a = true → ∀ b, fast (norm a) b = fast a b) (kept : ∀ a ∈ S, ∀ b, slow (norm a) b = slow a b) :
    OrdersNormally S norm (withShortcut plain fast slow) ↔
      ∀ a ∈ S, ∀ b ∈ S, plain a = false → plain b = true → fast (norm a) b = slow a b := by
  constructor
  · intro orders a a_ b b_ rough smooth
    have same := orders.left a a_ b b_
    unfold withShortcut at same
    rw [normal a a_, rough, smooth] at same
    exact same
  intro bridge
  have left : ∀ a ∈ S, ∀ b ∈ S, withShortcut plain fast slow (norm a) b = withShortcut plain fast slow a b := by
    intro a a_ b b_
    unfold withShortcut
    rw [normal a a_, Bool.true_and]
    cases smooth : plain b with
    | true =>
      cases rough : plain a with
      | true => exact fixed a a_ rough b
      | false => exact bridge a a_ b b_ rough smooth
    | false =>
      rw [Bool.and_false]
      exact kept a a_ b
  refine ⟨fun a _ b _ => withShortcut_swap lawful lawful' a b, fun a a_ b b_ c c_ first second => ?_, left,
    fun a a_ b b_ => ?_⟩
  · exact (composes_withShortcut lawful lawful' bridge a_ b_ c_).le first second
  · rw [withShortcut_swap lawful lawful' (norm b) a, left b b_ a a_, ← withShortcut_swap lawful lawful' b a]
end

def le (cmp : α → α → Ordering) (a b : α) : Prop := cmp a b ≠ .gt

instance (cmp : α → α → Ordering) : DecidableRel (le cmp) := fun a b => inferInstanceAs (Decidable (cmp a b ≠ .gt))

def sortBy (cmp : α → α → Ordering) (l : List α) : List α := l.insertionSort (le cmp)

theorem mem_sortBy : a ∈ sortBy cmp l ↔ a ∈ l := mem_insertionSort _

theorem pairwise_sortBy (lawful : Lawful cmp) (l : List α) : (sortBy cmp l).Pairwise (le cmp) := by
  have total : Std.Total (le cmp) := ⟨fun a b => by
    unfold le
    rw [lawful.swap a b]
    cases cmp a b <;> decide⟩
  have trans : IsTrans α (le cmp) := ⟨fun a b c first second => (lawful.composes a b c).le first second⟩
  exact pairwise_insertionSort _ l

theorem orderedInsert_congr (agree : ∀ b ∈ l, cmp a b = cmp' a b) : l.orderedInsert (le cmp) a = l.orderedInsert (le cmp') a := by
  induction l with
  | nil => rfl
  | cons b l ih =>
    obtain ⟨here, rest⟩ := forall_mem_cons.mp agree
    have same : le cmp a b ↔ le cmp' a b := by rw [le, le, here]
    rw [List.orderedInsert, List.orderedInsert, ih rest]
    exact if_congr same rfl rfl

theorem sortBy_congr (agree : l.Pairwise fun a b => cmp a b = cmp' a b) : sortBy cmp l = sortBy cmp' l := by
  induction l with
  | nil => rfl
  | cons a l ih =>
    obtain ⟨first, rest⟩ := pairwise_cons.mp agree
    unfold sortBy at ih ⊢
    rw [insertionSort_cons, insertionSort_cons, ih rest]
    exact orderedInsert_congr fun b member => first b ((mem_insertionSort _).mp member)

theorem forall₂_key {β : Type} {key : α → β} {l' : List α} :
    Forall₂ (fun a b => key a = key b) l l' ↔ l.map key = l'.map key := by
  rw [← forall₂_eq_eq_eq, forall₂_map_left_iff, forall₂_map_right_iff]

/-- Sorting forgets the order of a list, up to a key that the comparison looks at and nothing else. -/
theorem sortBy_of_perm {β : Type} {key : α → β} {l' s : List α} (lawful : Lawful cmp)
    (tells : ∀ a ∈ s, ∀ b ∈ s, cmp a b = .eq ↔ key a = key b) (inside : l ⊆ s) (inside' : l' ⊆ s)
    (same : (l.map key).Perm (l'.map key)) : Forall₂ (fun a b => key a = key b) (sortBy cmp l) (sortBy cmp l') := by
  have sorted (m : List α) (within : m ⊆ s) : ((sortBy cmp m).map key).Pairwise fun k k' =>
      ∃ a ∈ s, ∃ b ∈ s, key a = k ∧ key b = k' ∧ le cmp a b :=
    pairwise_map.mpr <| (pairwise_sortBy lawful m).imp_of_mem fun {a b} left right below =>
      ⟨a, within (mem_sortBy.mp left), b, within (mem_sortBy.mp right), rfl, rfl, below⟩
  have trans {a b c : α} (first : le cmp a b) (second : le cmp b c) : le cmp a c := (lawful.composes a b c).le first second
  have alike {a b : α} (left : a ∈ s) (right : b ∈ s) (keys : key a = key b) : le cmp a b := by
    rw [le, (tells a left b right).mpr keys]
    decide
  rw [forall₂_key]
  refine Perm.eq_of_pairwise ?_ (sorted l inside) (sorted l' inside')
    (((perm_insertionSort _ l).map key).trans (same.trans ((perm_insertionSort _ l').map key).symm))
  rintro _ _ - - ⟨a, a_, b, b_, rfl, rfl, below⟩ ⟨c, c_, d, d_, second, first, below'⟩
  have above : le cmp b a := trans (alike b_ c_ second.symm) (trans below' (alike d_ a_ first))
  refine (tells a a_ b b_).mp ?_
  rw [le, lawful.swap a b] at above
  rw [le] at below
  revert above below
  cases cmp a b <;> decide

variable {first : α} {run l : List α} {g : α × List α}

/-- The runs of a list whose elements are the same as their first one, after such a run so far. -/
def runsFrom (same : α → α → Bool) (first : α) (run : List α) : List α → List (α × List α)
  | [] => [(first, run)]
  | a :: rest => if same first a then runsFrom same first (run ++ [a]) rest else (first, run) :: runsFrom same a [] rest

def runs (same : α → α → Bool) : List α → List (α × List α)
  | [] => []
  | a :: rest => runsFrom same a [] rest

variable {same : α → α → Bool}

theorem exists_run {x : α} (member : x = first ∨ x ∈ run ∨ x ∈ l) : ∃ g ∈ runsFrom same first run l, x = g.1 ∨ x ∈ g.2 := by
  induction l generalizing first run with
  | nil => exact ⟨(first, run), mem_singleton.mpr rfl, by simpa using member⟩
  | cons a rest ih =>
    rw [runsFrom]
    split
    · apply ih
      simp only [mem_append, mem_cons, not_mem_nil, or_false] at member ⊢
      tauto
    rcases member with here | here | here
    · exact ⟨(first, run), mem_cons_self, .inl here⟩
    · exact ⟨(first, run), mem_cons_self, .inr here⟩
    · have later : x = a ∨ x ∈ ([] : List α) ∨ x ∈ rest := by simpa using here
      obtain ⟨g, listed, inside⟩ := ih later
      exact ⟨g, mem_cons_of_mem _ listed, inside⟩

theorem run_same (sofar : ∀ y ∈ run, same first y = true)
    (listed : g ∈ runsFrom same first run l) : ∀ y ∈ g.2, same g.1 y = true := by
  induction l generalizing first run with
  | nil =>
    obtain rfl := mem_singleton.mp listed
    exact sofar
  | cons a rest ih =>
    rw [runsFrom] at listed
    split at listed
    · rename_i alike
      refine ih (fun y member => ?_) listed
      rcases mem_append.mp member with before | here
      · exact sofar y before
      · rw [mem_singleton.mp here]
        exact alike
    · rcases mem_cons.mp listed with rfl | later
      · exact sofar
      · exact ih (fun y member => by cases member) later

theorem run_subset (listed : g ∈ runsFrom same first run l) : (g.1 = first ∨ g.1 ∈ l) ∧ ∀ y ∈ g.2, y ∈ run ∨ y ∈ l := by
  induction l generalizing first run with
  | nil =>
    obtain rfl := mem_singleton.mp listed
    exact ⟨.inl rfl, fun y member => .inl member⟩
  | cons a rest ih =>
    rw [runsFrom] at listed
    split at listed
    · obtain ⟨head, tail⟩ := ih listed
      refine ⟨head.imp_right (mem_cons_of_mem a), fun y member => ?_⟩
      have found := tail y member
      simp only [mem_append, mem_cons, not_mem_nil, or_false] at found ⊢
      tauto
    rcases mem_cons.mp listed with rfl | later
    · exact ⟨.inl rfl, fun y member => .inl member⟩
    · obtain ⟨head, tail⟩ := ih later
      refine ⟨.inr (mem_cons.mpr head), fun y member => ?_⟩
      exact .inr (mem_cons_of_mem a ((tail y member).resolve_left (by simp)))

theorem runsFrom_aligned {R : α → α → Prop} (respects : ∀ {a a' b b'}, R a a' → R b b' → same a b = same a' b') {l' : List α}
    (aligned : Forall₂ R l l') : ∀ {first first' : α} {run run' : List α}, R first first' → Forall₂ R run run' →
      Forall₂ (fun g g' => R g.1 g'.1 ∧ Forall₂ R g.2 g'.2) (runsFrom same first run l) (runsFrom same first' run' l') := by
  induction aligned with
  | nil => exact fun heads runs => .cons ⟨heads, runs⟩ .nil
  | @cons a a' rest rest' here later ih =>
    intro first first' run run' heads runs
    rw [runsFrom, runsFrom, respects heads here]
    split
    · exact ih heads (rel_append runs (.cons here .nil))
    · exact .cons ⟨heads, runs⟩ (ih here .nil)

theorem runs_increasing {cmp : α → α → Ordering} (lawful : Lawful cmp)
    (sorted : (first :: l).Pairwise (le cmp)) (exact_ : ∀ x ∈ first :: l, ∀ y ∈ first :: l, cmp x y = .eq → same x y = true) :
    (runsFrom same first run l).Pairwise fun g g' => cmp g.1 g'.1 = .lt := by
  induction l generalizing first run with
  | nil => exact pairwise_singleton _ _
  | cons a rest ih =>
    obtain ⟨above, later⟩ := pairwise_cons.mp sorted
    rw [runsFrom]
    split
    · refine ih (pairwise_cons.mpr ⟨fun y member => above y (mem_cons_of_mem a member), (pairwise_cons.mp later).2⟩)
        fun x left y right => exact_ x ?_ y ?_
      · simp only [mem_cons] at left ⊢
        tauto
      · simp only [mem_cons] at right ⊢
        tauto
    rename_i other
    refine pairwise_cons.mpr ⟨fun g listed => ?_, ih later fun x left y right =>
      exact_ x (mem_cons_of_mem _ left) y (mem_cons_of_mem _ right)⟩
    have next : cmp first a = .lt := by
      cases found : cmp first a with
      | lt => rfl
      | eq => exact absurd (exact_ first mem_cons_self a (by simp) found) other
      | gt => exact absurd found (above a mem_cons_self)
    rcases (run_subset listed).1 with here | inside
    · rw [here]
      exact next
    · exact (lawful.composes first a g.1).lt_of_lt_of_le next ((pairwise_cons.mp later).1 g.1 inside)

end Comparison
