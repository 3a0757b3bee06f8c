import Mathlib.Data.Set.Finite.Basic

/-! Chains of references in a labelled graph, up to a label that they have. -/
namespace Chains
open Relation List

variable {N L : Type}

structure Graph (N L : Type) where
  label : N → L
  opens : N → Prop
  refs : N → List N

variable (g : Graph N L) (root : L) (first : List N)

/-- The nodes at the ends of chains, with the labels before them. -/
inductive Reached : List L → N → Prop
  | first {n : N} : n ∈ first → Reached [root] n
  | next {labels : List L} {m n : N} : Reached labels m → g.opens m → g.label m ∉ labels → n ∈ g.refs m →
      Reached (labels ++ [g.label m]) n

def Revisits : Prop := ∃ labels n, Reached g root first labels n ∧ g.label n ∈ labels

def OpenRevisits : Prop := ∃ labels n, Reached g root first labels n ∧ g.opens n ∧ g.label n ∈ labels

/-- No chain comes back to a label other than that of the root. -/
def OnlyToRoot : Prop := ∀ labels n, Reached g root first labels n → g.label n ∈ labels → g.label n = root

def Inner (n : N) : Prop := ∃ labels, Reached g root first labels n ∧ g.opens n ∧ g.label n ∉ labels

/-- A chain from a node comes back to a label that it has, at a node that opens. -/
inductive Circles : List L → N → Prop
  | here {labels : List L} {n : N} : g.opens n → g.label n ∈ labels → Circles labels n
  | through {labels : List L} {n m : N} : g.opens n → g.label n ∉ labels → m ∈ g.refs n →
      Circles (labels ++ [g.label n]) m → Circles labels n

/-- Every chain from a node ends, and its inner nodes are fine. -/
inductive Ends (fine : N → Prop) : List L → N → Prop
  | closed {labels : List L} {n : N} : ¬ g.opens n → Ends fine labels n
  | back {labels : List L} {n : N} : g.label n ∈ labels → Ends fine labels n
  | node {labels : List L} {n : N} : fine n → (∀ m ∈ g.refs n, Ends fine (labels ++ [g.label n]) m) → Ends fine labels n

inductive Returns : N → Prop
  | here {n : N} : g.opens n → g.label n = root → Returns n
  | through {n m : N} : g.opens n → g.label n ≠ root → m ∈ g.refs n → Returns m → Returns n

/-- Every chain from a node ends or comes back to the root, whatever labels it has. -/
inductive Grounded (fine : N → Prop) : N → Prop
  | closed {n : N} : ¬ g.opens n → Grounded fine n
  | back {n : N} : g.label n = root → Grounded fine n
  | node {n : N} : fine n → (∀ m ∈ g.refs n, Grounded fine m) → Grounded fine n

variable {g root first}

section
variable {labels : List L} {n : N}

variable (reached : Reached g root first labels n)
include reached

theorem root_mem : root ∈ labels := by
  induction reached with
  | first _ => exact mem_singleton_self root
  | next _ _ _ _ ih => exact mem_append_left _ ih

theorem labels_nodup : labels.Nodup := by
  induction reached with
  | first _ => exact nodup_singleton root
  | next _ _ fresh _ ih => exact ih.append (nodup_singleton _) (by simpa using fresh)

theorem mem_labels {l : L} (member : l ∈ labels) : l = root ∨ ∃ labels' m, Reached g root first labels' m ∧ g.label m = l := by
  induction reached with
  | first _ => exact .inl (mem_singleton.mp member)
  | @next labels m n reached _ _ _ ih =>
    rcases mem_append.mp member with old | new
    · exact ih old
    · exact .inr ⟨labels, m, reached, (mem_singleton.mp new).symm⟩
end

section
variable {labels : List L} {n : N}

theorem openRevisits_of_circles (circles : Circles g labels n)
    (reached : Reached g root first labels n) : OpenRevisits g root first := by
  induction circles with
  | @here labels n opened back => exact ⟨labels, n, reached, opened, back⟩
  | through opened fresh member _ ih => exact ih (.next reached opened fresh member)

theorem circles_of_reached (reached : Reached g root first labels n)
    (circles : Circles g labels n) : ∃ m ∈ first, Circles g [root] m := by
  induction reached with
  | @first n member => exact ⟨n, member, circles⟩
  | next _ opened fresh member ih => exact ih (.through opened fresh member circles)

theorem openRevisits_iff : OpenRevisits g root first ↔ ∃ n ∈ first, Circles g [root] n := by
  constructor
  · rintro ⟨labels, n, reached, opened, back⟩
    exact circles_of_reached reached (.here opened back)
  · rintro ⟨n, member, circles⟩
    exact openRevisits_of_circles circles (.first member)

theorem circles_of_returns (returns : Returns g root n) : ∀ {labels : List L}, root ∈ labels → Circles g labels n := by
  induction returns with
  | here opened back => exact fun member => .here opened (back ▸ member)
  | @through n m opened _ member _ ih =>
    intro labels inside
    by_cases back : g.label n ∈ labels
    · exact .here opened back
    · exact .through opened back member (ih (mem_append_left _ inside))

theorem returns_of_circles (only : OnlyToRoot g root first) (circles : Circles g labels n)
    (reached : Reached g root first labels n) : Returns g root n := by
  induction circles with
  | @here labels n opened back => exact .here opened (only labels n reached back)
  | through opened fresh member _ ih =>
    have inner : g.label _ ≠ root := fun same => fresh (same ▸ root_mem reached)
    exact .through opened inner member (ih (.next reached opened fresh member))

theorem circles_iff_returns (only : OnlyToRoot g root first)
    (reached : Reached g root first labels n) : Circles g labels n ↔ Returns g root n :=
  ⟨fun circles => returns_of_circles only circles reached, fun returns => circles_of_returns returns (root_mem reached)⟩
end

section
variable {fine : N → Prop} {labels : List L} {n : N}

theorem ends_of_finite [DecidableEq L] (finite : {l | ∃ labels n, Reached g root first labels n ∧ g.label n = l}.Finite)
    (inner : ∀ n, Inner g root first n → fine n) (reached : Reached g root first labels n) :
    Ends g fine labels n := by
  have bounded : ∀ {labels n}, Reached g root first labels n → labels.length ≤ finite.toFinset.card + 1 := by
    intro labels n reached
    have inside : labels.toFinset ⊆ insert root finite.toFinset := by
      intro l member
      have := mem_labels reached (mem_toFinset.mp member)
      simpa using this
    calc labels.length = labels.toFinset.card := (toFinset_card_of_nodup (labels_nodup reached)).symm
      _ ≤ (insert root finite.toFinset).card := Finset.card_le_card inside
      _ ≤ finite.toFinset.card + 1 := Finset.card_insert_le _ _
  have walk : ∀ room : Nat, ∀ {labels n}, Reached g root first labels n →
      finite.toFinset.card + 1 < labels.length + room → Ends g fine labels n := by
    intro room
    induction room with
    | zero =>
      intro labels n reached short
      have := bounded reached
      omega
    | succ room ih =>
      intro labels n reached short
      by_cases opened : g.opens n
      · by_cases back : g.label n ∈ labels
        · exact .back back
        apply Ends.node (inner n ⟨labels, reached, opened, back⟩)
        intro m member
        apply ih (.next reached opened back member)
        simp only [length_append, length_singleton]
        omega
      · exact .closed opened
  exact walk (finite.toFinset.card + 2) reached (by omega)

theorem ends_of_reached (ends : ∀ n ∈ first, Ends g fine [root] n)
    (reached : Reached g root first labels n) : Ends g fine labels n := by
  induction reached with
  | first member => exact ends _ member
  | next _ opened fresh member ih =>
    cases ih with
    | closed shut => exact absurd opened shut
    | back back => exact absurd back fresh
    | node _ below => exact below _ member

theorem fine_of_ends (ends : ∀ n ∈ first, Ends g fine [root] n) (inner : Inner g root first n) : fine n := by
  obtain ⟨labels, reached, opened, fresh⟩ := inner
  cases ends_of_reached ends reached with
  | closed shut => exact absurd opened shut
  | back back => exact absurd back fresh
  | node fine _ => exact fine
end

variable {fine : N → Prop} {labels : List L} {n : N}

theorem grounded_of_reached (grounded : ∀ n ∈ first, Grounded g root fine n)
    (reached : Reached g root first labels n) : Grounded g root fine n := by
  induction reached with
  | first member => exact grounded _ member
  | next reached opened fresh member ih =>
    cases ih with
    | closed shut => exact absurd opened shut
    | back back => exact absurd (back ▸ root_mem reached) fresh
    | node _ below => exact below _ member

theorem fine_of_grounded (grounded : ∀ n ∈ first, Grounded g root fine n) (inner : Inner g root first n) : fine n := by
  obtain ⟨labels, reached, opened, fresh⟩ := inner
  cases grounded_of_reached grounded reached with
  | closed shut => exact absurd opened shut
  | back back => exact absurd (back ▸ root_mem reached) fresh
  | node fine _ => exact fine

def Below (g : Graph N L) (root : L) (n m : N) : Prop := g.opens m ∧ g.label m ≠ root ∧ n ∈ g.refs m

theorem not_self_of_acc {r : N → N → Prop} (acc : Acc r n) : ¬ r n n := by
  induction acc with
  | intro n _ ih => exact fun loop => ih n loop loop

theorem acc_of_grounded (grounded : Grounded g root fine n) : Acc (Below g root) n := by
  induction grounded with
  | closed shut => exact ⟨_, fun m below => absurd below.1 shut⟩
  | back back => exact ⟨_, fun m below => absurd back below.2.1⟩
  | node _ _ ih => exact ⟨_, fun m below => ih m below.2.2⟩

theorem above_of_label (reached : Reached g root first labels n) {l : L} (member : l ∈ labels)
    (inner : l ≠ root) : ∃ labels' m, Reached g root first labels' m ∧ g.label m = l ∧ TransGen (Below g root) n m := by
  induction reached with
  | first _ => exact absurd (mem_singleton.mp member) inner
  | @next labels m n reached opened fresh ref ih =>
    have step : Below g root n m := ⟨opened, fun same => fresh (same ▸ root_mem reached), ref⟩
    rcases mem_append.mp member with old | new
    · obtain ⟨labels', k, reached', same, above⟩ := ih old
      exact ⟨labels', k, reached', same, .head step above⟩
    · exact ⟨labels, m, reached, (mem_singleton.mp new).symm, .single step⟩

def Distinct (g : Graph N L) (root : L) (first : List N) : Prop := ∀ labels n labels' m, Reached g root first labels n →
  Reached g root first labels' m → g.label n = g.label m → n = m

theorem onlyToRoot_of_grounded (grounded : ∀ n ∈ first, Grounded g root fine n) (distinct : Distinct g root first) :
    OnlyToRoot g root first := by
  intro labels n reached back
  by_contra inner
  obtain ⟨labels', m, reached', same, above⟩ := above_of_label reached back inner
  obtain rfl : m = n := distinct labels' m labels n reached' reached same
  exact not_self_of_acc (acc_of_grounded (grounded_of_reached grounded reached)).transGen above

end Chains
