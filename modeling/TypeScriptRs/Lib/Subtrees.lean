import TypeScriptRs.Lib.Preorder

/-! The subtrees of a tree, and properties of all of them. -/
namespace Preorder

variable {α : Type}

def Rose.label : Rose α → α
  | .node label _ => label

def Rose.children : Rose α → List (Rose α)
  | .node _ children => children

mutual
def Rose.subtrees : Rose α → List (Rose α)
  | .node label children => .node label children :: forestSubtrees children

def forestSubtrees : List (Rose α) → List (Rose α)
  | [] => []
  | t :: ts => t.subtrees ++ forestSubtrees ts
end

theorem mem_forestSubtrees {ts : List (Rose α)} {s : Rose α} : s ∈ forestSubtrees ts ↔ ∃ t ∈ ts, s ∈ t.subtrees := by
  induction ts with
  | nil => simp [forestSubtrees]
  | cons t ts ih => simp [forestSubtrees, ih]

theorem Rose.mem_subtrees {t s : Rose α} : s ∈ t.subtrees ↔ s = t ∨ ∃ e ∈ t.children, s ∈ e.subtrees := by
  cases t with
  | node label children =>
    rw [Rose.subtrees, List.mem_cons, mem_forestSubtrees]
    rfl

theorem Rose.self_mem_subtrees (t : Rose α) : t ∈ t.subtrees := mem_subtrees.mpr (.inl rfl)

mutual
theorem Rose.induct {P : Rose α → Prop} (each : ∀ t : Rose α, (∀ e ∈ t.children, P e) → P t) (t : Rose α) : P t := by
  cases t with
  | node label children => exact each _ (forest_induct each children)

theorem forest_induct {P : Rose α → Prop} (each : ∀ t : Rose α, (∀ e ∈ t.children, P e) → P t) (ts : List (Rose α)) :
    ∀ e ∈ ts, P e := by
  cases ts with
  | nil => exact fun e none_ => absurd none_ List.not_mem_nil
  | cons t ts =>
    intro e member
    rcases List.mem_cons.mp member with same | later
    · rw [same]
      exact Rose.induct each t
    · exact forest_induct each ts e later
end

theorem Rose.forall_subtrees_iff {P Q : Rose α → Prop} (t : Rose α)
    (each : ∀ s ∈ t.subtrees, (∀ e ∈ s.children, ∀ c ∈ e.subtrees, P c) → (P s ↔ Q s)) :
    (∀ s ∈ t.subtrees, P s) ↔ ∀ s ∈ t.subtrees, Q s := by
  induction t using Rose.induct with
  | each t ih =>
    have below (e : Rose α) (child : e ∈ t.children) : (∀ s ∈ e.subtrees, P s) ↔ ∀ s ∈ e.subtrees, Q s :=
      ih e child fun s member => each s (mem_subtrees.mpr (.inr ⟨e, child, member⟩))
    have here (all : ∀ e ∈ t.children, ∀ c ∈ e.subtrees, P c) : P t ↔ Q t := each t t.self_mem_subtrees all
    constructor
    · intro all s member
      have children (e : Rose α) (child : e ∈ t.children) : ∀ c ∈ e.subtrees, P c :=
        fun c inside => all c (mem_subtrees.mpr (.inr ⟨e, child, inside⟩))
      rcases mem_subtrees.mp member with rfl | ⟨e, child, inside⟩
      · exact (here children).mp (all _ (self_mem_subtrees _))
      · exact (below e child).mp (children e child) s inside
    intro all s member
    have children (e : Rose α) (child : e ∈ t.children) : ∀ c ∈ e.subtrees, P c :=
      (below e child).mpr fun c inside => all c (mem_subtrees.mpr (.inr ⟨e, child, inside⟩))
    rcases mem_subtrees.mp member with rfl | ⟨e, child, inside⟩
    · exact (here children).mpr (all _ (self_mem_subtrees _))
    · exact children e child s inside

end Preorder
