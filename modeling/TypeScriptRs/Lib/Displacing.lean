import Mathlib.Data.List.Perm.Basic
import Mathlib.Data.List.Induction
import Mathlib.Data.List.Nodup

/-! A collection in which items displace others, and when the order of the items does not matter. -/
namespace Displacing
open List

variable {α κ : Type} [DecidableEq κ]

structure Rules (α κ : Type) where
  key : α → κ
  /-- the keys that are held whatever arrives -/
  fixed : κ → Bool
  /-- the keys that turn an item away -/
  blockers : α → List κ
  /-- the keys that an item displaces when it is not turned away -/
  displaced : α → List κ

namespace Rules
variable (rules : Rules α κ)

def holds (kept : List (κ × α)) (key : κ) : Bool := rules.fixed key || kept.any (·.1 = key)

/-- What is left of the held items when one displaces some of them. -/
def remaining (kept : List (κ × α)) (item : α) : List (κ × α) := kept.filter (·.1 ∉ rules.displaced item)

def arrive (kept : List (κ × α)) (item : α) : List (κ × α) :=
  if (rules.blockers item).any (rules.holds kept) then kept
  else
    let kept := rules.remaining kept item
    if rules.holds kept (rules.key item) then kept else kept ++ [(rules.key item, item)]

def run (items : List α) : List (κ × α) := items.foldl rules.arrive []

def Blocked (item : α) : Prop := ∃ key ∈ rules.blockers item, rules.fixed key = true

/-- Nothing keeps these items from staying, whatever the order. -/
structure Staying (items : List α) (stays : α → Prop) : Prop where
  free : ∀ f ∈ items, stays f → rules.fixed (rules.key f) = false ∧ ¬rules.Blocked f
  unblocked : ∀ f ∈ items, stays f → ∀ g ∈ items, g ≠ f → rules.key g ∈ rules.blockers f → rules.Blocked g
  undisplaced : ∀ f ∈ items, stays f → ∀ g ∈ items, g ≠ f → rules.key f ∈ rules.displaced g →
    rules.Blocked g ∨ rules.key f ∈ rules.blockers g

/-- Which items stay, whatever the order: what it takes of each pair of items. -/
structure Settled (items : List α) (stays : α → Prop) : Prop extends rules.Staying items stays where
  goes : ∀ f ∈ items, ¬stays f → rules.fixed (rules.key f) = true ∨ rules.Blocked f ∨
    ∃ g ∈ items, stays g ∧ rules.key g ∈ rules.blockers f ∧ rules.key f ∈ rules.displaced g

variable {rules}

section
variable {kept : List (κ × α)} {item : α}

theorem holds_iff {key : κ} : rules.holds kept key = true ↔ rules.fixed key = true ∨ ∃ f, (key, f) ∈ kept := by
  simp [holds]

theorem blocked_iff : (rules.blockers item).any (rules.holds kept) = true ↔
    rules.Blocked item ∨ ∃ key ∈ rules.blockers item, ∃ f, (key, f) ∈ kept := by
  simp only [any_eq_true, holds_iff, Blocked]
  constructor
  · rintro ⟨key, member, fixed | found⟩
    · exact .inl ⟨key, member, fixed⟩
    · exact .inr ⟨key, member, found⟩
  · rintro (⟨key, member, fixed⟩ | ⟨key, member, found⟩)
    · exact ⟨key, member, .inl fixed⟩
    · exact ⟨key, member, .inr found⟩

theorem arrive_blocked (blocked : (rules.blockers item).any (rules.holds kept) = true) : rules.arrive kept item = kept := by
  rw [arrive, if_pos blocked]

theorem mem_arrive (open_ : ¬(rules.blockers item).any (rules.holds kept) = true) {entry : κ × α} :
    entry ∈ rules.arrive kept item ↔ entry ∈ kept ∧ entry.1 ∉ rules.displaced item ∨
      entry = (rules.key item, item) ∧ rules.fixed (rules.key item) = false ∧
        ∀ f, (rules.key item, f) ∈ kept → rules.key item ∈ rules.displaced item := by
  rw [arrive, if_neg open_]
  dsimp only
  split
  · rename_i held
    constructor
    · intro member
      exact .inl (by simpa [remaining] using member)
    rintro (member | ⟨rfl, free, fresh⟩)
    · simpa [remaining] using member
    · rcases holds_iff.mp held with fixed | ⟨f, found⟩
      · simp [free] at fixed
      · simp only [remaining, mem_filter, decide_eq_true_eq] at found
        exact absurd (fresh f found.1) found.2
  rename_i absent
  rw [holds_iff] at absent
  have free : rules.fixed (rules.key item) = false := by
    by_contra fixed
    exact absent (.inl (by simpa using fixed))
  have fresh : ∀ f, (rules.key item, f) ∈ kept → rules.key item ∈ rules.displaced item := by
    intro f member
    by_contra stays
    exact absent (.inr ⟨f, by simp [remaining, member, stays]⟩)
  simp [remaining, free]
  tauto
end

section
variable {order back : List α} {kept : List (κ × α)} {f : α}

theorem run_append (front back : List α) : rules.run (front ++ back) = back.foldl rules.arrive (rules.run front) :=
  foldl_append

theorem run_concat (front : List α) (item : α) : rules.run (front ++ [item]) = rules.arrive (rules.run front) item :=
  run_append front [item]

/-- What holds of every run: only items that arrived are held, under their keys, and none that a fixed key keeps out. -/
theorem run_entries (order : List α) : ∀ entry ∈ rules.run order, entry.2 ∈ order ∧ entry.1 = rules.key entry.2 ∧
    rules.fixed entry.1 = false ∧ ¬rules.Blocked entry.2 := by
  induction order using List.reverseRecOn with
  | nil => simp [run]
  | append_singleton front item ih =>
    intro entry member
    rw [run_concat] at member
    by_cases blocked : (rules.blockers item).any (rules.holds (rules.run front)) = true
    · rw [arrive_blocked blocked] at member
      obtain ⟨arrived, rest⟩ := ih entry member
      exact ⟨mem_append_left _ arrived, rest⟩
    rcases (mem_arrive blocked).mp member with ⟨before, _⟩ | ⟨rfl, free, _⟩
    · obtain ⟨arrived, rest⟩ := ih entry before
      exact ⟨mem_append_left _ arrived, rest⟩
    · refine ⟨by simp, rfl, free, ?_⟩
      intro fixed
      exact blocked (blocked_iff.mpr (.inl fixed))

variable {items : List α} {stays : α → Prop}

theorem Staying.held (staying : rules.Staying items stays) (nodup : (order.map rules.key).Nodup)
    (inside : ∀ f ∈ order, f ∈ items) : ∀ f ∈ order, stays f → (rules.key f, f) ∈ rules.run order := by
  induction order using List.reverseRecOn with
  | nil => simp
  | append_singleton front item ih =>
    rw [map_append, nodup_append] at nodup
    have fresh : ∀ f ∈ front, rules.key f ≠ rules.key item := by
      intro f member
      exact nodup.2.2 _ (mem_map_of_mem member) _ (by simp)
    have held := ih nodup.1 fun f member => inside f (mem_append_left _ member)
    have itemInside := inside item (by simp)
    rw [run_concat]
    intro f member stays_
    have fInside := inside f member
    by_cases blocked : (rules.blockers item).any (rules.holds (rules.run front)) = true
    · rw [arrive_blocked blocked]
      rcases mem_append.mp member with before | last
      · exact held f before stays_
      cases mem_singleton.mp last
      rcases blocked_iff.mp blocked with fixed | ⟨key, blocks, g, found⟩
      · exact absurd fixed (staying.free item itemInside stays_).2
      obtain ⟨arrived, same, _, open_⟩ := run_entries front _ found
      simp only at arrived same open_
      rw [same] at blocks
      have other : g ≠ item := by
        rintro rfl
        exact fresh g arrived rfl
      exact absurd (staying.unblocked item itemInside stays_ g (inside g (mem_append_left _ arrived)) other blocks) open_
    rw [mem_arrive blocked]
    rcases mem_append.mp member with before | last
    · refine .inl ⟨held f before stays_, ?_⟩
      intro displaced
      have other : item ≠ f := by
        rintro rfl
        exact fresh item before rfl
      rcases staying.undisplaced f fInside stays_ item itemInside other displaced with fixed | blocks
      · exact blocked (blocked_iff.mpr (.inl fixed))
      · exact blocked (blocked_iff.mpr (.inr ⟨_, blocks, f, held f before stays_⟩))
    · cases mem_singleton.mp last
      refine .inr ⟨rfl, (staying.free item itemInside stays_).1, ?_⟩
      intro g found
      obtain ⟨arrived, same, _⟩ := run_entries front _ found
      exact absurd same.symm (fresh g arrived)

theorem kept_of_undisplaced {entry : κ × α} (held : entry ∈ kept) (none_ : ∀ front g rest, back = front ++ g :: rest →
      (rules.blockers g).any (rules.holds (front.foldl rules.arrive kept)) = true ∨ entry.1 ∉ rules.displaced g) :
    entry ∈ back.foldl rules.arrive kept := by
  induction back generalizing kept with
  | nil => exact held
  | cons g rest ih =>
    apply ih
    · rcases none_ [] g rest rfl with blocked | apart
      · rw [foldl_nil] at blocked
        rwa [arrive_blocked blocked]
      · by_cases blocked : (rules.blockers g).any (rules.holds kept) = true
        · rwa [arrive_blocked blocked]
        · exact (mem_arrive blocked).mpr (.inl ⟨held, apart⟩)
    · intro front g' rest' shape
      simpa using none_ (g :: front) g' rest' (by simp [shape])

theorem gone_of_absent {key : κ} (gone : (key, f) ∉ kept) (absent : f ∉ back) : (key, f) ∉ back.foldl rules.arrive kept := by
  induction back generalizing kept with
  | nil => exact gone
  | cons g rest ih =>
    apply ih _ (fun member => absent (mem_cons_of_mem _ member))
    intro found
    by_cases blocked : (rules.blockers g).any (rules.holds kept) = true
    · rw [arrive_blocked blocked] at found
      exact gone found
    · rcases (mem_arrive blocked).mp found with ⟨before, _⟩ | ⟨same, _⟩
      · exact gone before
      · cases same
        exact absent (by simp)

theorem Settled.goes_away (settled : rules.Settled items stays) (nodup : (order.map rules.key).Nodup)
    (perm : order.Perm items) (member : f ∈ items) (leaves : ¬stays f) : (rules.key f, f) ∉ rules.run order := by
  rcases settled.goes f member leaves with fixed | blocked | ⟨g, gMember, gStays, blocks, displaced⟩
  · intro held
    have free := (run_entries order _ held).2.2.1
    simp [fixed] at free
  · intro held
    exact (run_entries order _ held).2.2.2 blocked
  obtain ⟨front, back, rfl⟩ := append_of_mem (perm.mem_iff.mpr member)
  have inside : ∀ h ∈ front ++ f :: back, h ∈ items := fun h => perm.mem_iff.mp
  have split := nodup
  rw [map_append, map_cons, nodup_append, nodup_cons] at split
  have frontFresh : f ∉ front := fun before => split.2.2 _ (mem_map_of_mem before) _ (by simp) rfl
  have backFresh : f ∉ back := fun after => split.2.1.1 (mem_map_of_mem after)
  have other : g ≠ f := by
    rintro rfl
    exact leaves gStays
  have arrives : g ∈ front ∨ g ∈ back := by
    have somewhere := perm.mem_iff.mpr gMember
    simpa [other] using somewhere
  rcases arrives with before | after
  · have held := settled.held split.1 (fun h member => inside h (by simp [member])) g before gStays
    rw [run_append, foldl_cons, arrive_blocked (blocked_iff.mpr (.inr ⟨_, blocks, g, held⟩))]
    apply gone_of_absent _ backFresh
    intro held
    exact frontFresh (run_entries front _ held).1
  obtain ⟨middle, rest, rfl⟩ := append_of_mem after
  have shape : front ++ f :: (middle ++ g :: rest) = (front ++ f :: middle) ++ g :: rest := by simp
  rw [shape] at nodup inside ⊢
  have split' := nodup
  rw [map_append, map_cons, nodup_append] at split'
  have gFresh : g ∉ front ++ f :: middle := fun before => split'.2.2 _ (mem_map_of_mem before) _ (by simp) rfl
  have held : (rules.key g, g) ∈ rules.run ((front ++ f :: middle) ++ [g]) := by
    apply settled.held _ (fun h member => inside h _) g (by simp) gStays
    · exact List.Nodup.sublist (List.Sublist.map _ (by simp)) nodup
    · simp only [mem_append, mem_cons, not_mem_nil, or_false] at member ⊢
      tauto
  rw [run_concat] at held
  have open_ : ¬(rules.blockers g).any (rules.holds (rules.run (front ++ f :: middle))) = true := by
    intro blocked
    rw [arrive_blocked blocked] at held
    exact gFresh (run_entries _ _ held).1
  rw [run_append, foldl_cons]
  apply gone_of_absent _ fun member => backFresh (by simp [member])
  intro found
  rcases (mem_arrive open_).mp found with ⟨_, kept⟩ | ⟨same, _⟩
  · exact kept displaced
  · exact other (congrArg Prod.snd same).symm

theorem Settled.run_iff (settled : rules.Settled items stays) (nodup : (items.map rules.key).Nodup)
    (perm : order.Perm items) (member : f ∈ items) : (rules.key f, f) ∈ rules.run order ↔ stays f := by
  have orderNodup := ((perm.map rules.key).nodup_iff).mpr nodup
  constructor
  · intro held
    by_contra leaves
    exact settled.goes_away orderNodup perm member leaves held
  · intro stays_
    exact settled.held orderNodup (fun h => perm.mem_iff.mp) f (perm.mem_iff.mpr member) stays_
end

section
variable {items : List α} {stays : α → Prop} (nodup : (items.map rules.key).Nodup)
  (orders : ∀ order, order.Perm items → ∀ f ∈ items, (rules.key f, f) ∈ rules.run order ↔ stays f)
variable {f g : α}
include nodup orders

omit [DecidableEq κ] nodup orders in
theorem perm_pair (fMember : f ∈ items) (gMember : g ∈ items) (other : g ≠ f) : ∃ rest, (f :: g :: rest).Perm items := by
  obtain ⟨a, b, rfl⟩ := append_of_mem fMember
  have inside : g ∈ a ++ b := by simpa [other] using gMember
  obtain ⟨c, d, split⟩ := append_of_mem inside
  refine ⟨c ++ d, ?_⟩
  have outer : (a ++ f :: b).Perm (f :: (c ++ g :: d)) := split ▸ perm_middle
  exact ((perm_middle.symm).cons f |>.trans outer.symm)

omit nodup orders in
theorem arrive_first (free : rules.fixed (rules.key f) = false) (open_ : ¬rules.Blocked f) :
    rules.arrive [] f = [(rules.key f, f)] := by
  have unblocked : ¬(rules.blockers f).any (rules.holds []) = true := by
    rw [blocked_iff]
    rintro (blocked | ⟨_, _, _, found⟩)
    · exact open_ blocked
    · cases found
  rw [arrive, if_neg unblocked]
  simp [holds, remaining, free]

omit nodup in
theorem free_of_orders (member : f ∈ items) (stays_ : stays f) : rules.fixed (rules.key f) = false ∧ ¬rules.Blocked f :=
  (run_entries items _ ((orders items (.refl _) f member).mpr stays_)).2.2

theorem unblocked_of_orders (fMember : f ∈ items) (fStays : stays f) (gMember : g ∈ items) (other : g ≠ f)
    (blocks : rules.key g ∈ rules.blockers f) : rules.Blocked g := by
  by_contra open_
  obtain ⟨rest, perm⟩ := perm_pair gMember fMember other.symm
  have free := free_of_orders orders fMember fStays
  have gFree : rules.fixed (rules.key g) = false := by
    by_contra fixed
    exact free.2 ⟨_, blocks, by simpa using fixed⟩
  have distinct := ((perm.map rules.key).nodup_iff).mpr nodup
  rw [map_cons, map_cons, nodup_cons, nodup_cons] at distinct
  have held := (orders _ perm f fMember).mpr fStays
  rw [run, foldl_cons, foldl_cons, arrive_first gFree open_,
    arrive_blocked (blocked_iff.mpr (.inr ⟨_, blocks, g, by simp⟩))] at held
  refine gone_of_absent ?_ (fun member => distinct.2.1 (mem_map_of_mem member)) held
  simp [other.symm]

theorem undisplaced_of_orders (fMember : f ∈ items) (fStays : stays f) (gMember : g ∈ items) (other : g ≠ f)
    (displaced : rules.key f ∈ rules.displaced g) : rules.Blocked g ∨ rules.key f ∈ rules.blockers g := by
  by_contra passes
  rw [not_or] at passes
  obtain ⟨rest, perm⟩ := perm_pair fMember gMember other
  have free := free_of_orders orders fMember fStays
  have distinct := ((perm.map rules.key).nodup_iff).mpr nodup
  rw [map_cons, map_cons, nodup_cons, nodup_cons] at distinct
  have held := (orders _ perm f fMember).mpr fStays
  rw [run, foldl_cons, foldl_cons, arrive_first free.1 free.2] at held
  refine gone_of_absent ?_ (fun member => distinct.1 (by simp [mem_map_of_mem member])) held
  have open_ : ¬(rules.blockers g).any (rules.holds [(rules.key f, f)]) = true := by
    rw [blocked_iff]
    rintro (blocked | ⟨key, blocks, h, found⟩)
    · exact passes.1 blocked
    · cases mem_singleton.mp found
      exact passes.2 blocks
  rw [mem_arrive open_]
  rintro (⟨_, kept⟩ | ⟨same, _⟩)
  · exact kept displaced
  · exact other (congrArg Prod.snd same).symm

theorem staying_of_orders : rules.Staying items stays where
  free _ member stays_ := free_of_orders orders member stays_
  unblocked _ fMember fStays _ gMember other blocks := unblocked_of_orders nodup orders fMember fStays gMember other blocks
  undisplaced _ fMember fStays _ gMember other displaced :=
    undisplaced_of_orders nodup orders fMember fStays gMember other displaced

theorem turnedAway_of_orders (member : f ∈ items) (leaves : ¬stays f) (free : rules.fixed (rules.key f) = false) :
    rules.Blocked f ∨ ∃ g ∈ items, stays g ∧ rules.key g ∈ rules.blockers f := by
  obtain ⟨a, b, rfl⟩ := append_of_mem member
  have perm : ((a ++ b) ++ [f]).Perm (a ++ f :: b) := by
    rw [append_assoc]
    exact List.Perm.append_left a (perm_append_comm)
  have distinct := ((perm.map rules.key).nodup_iff).mpr nodup
  have gone : (rules.key f, f) ∉ rules.run ((a ++ b) ++ [f]) := fun held => leaves ((orders _ perm f member).mp held)
  have blocked : (rules.blockers f).any (rules.holds (rules.run (a ++ b))) = true := by
    by_contra open_
    rw [run_concat, mem_arrive open_] at gone
    apply gone
    refine .inr ⟨rfl, free, ?_⟩
    intro g found
    rw [map_append, nodup_append] at distinct
    obtain ⟨arrived, same, _⟩ := run_entries _ _ found
    exact absurd same.symm (distinct.2.2 _ (mem_map_of_mem arrived) _ (by simp))
  rcases blocked_iff.mp blocked with fixed | ⟨key, blocks, g, found⟩
  · exact .inl fixed
  obtain ⟨arrived, same, _⟩ := run_entries _ _ found
  simp only at arrived same
  subst same
  have gMember : g ∈ a ++ f :: b := perm.mem_iff.mp (mem_append_left _ arrived)
  refine .inr ⟨g, gMember, (orders _ perm g gMember).mp ?_, blocks⟩
  rwa [run_concat, arrive_blocked blocked]

open Classical in
/-- An item that leaves is also displaced by one that turns it away: otherwise it stays when it arrives after all that stay
without turning it away, and before those that do. -/
theorem goes_of_orders (member : f ∈ items) (leaves : ¬stays f) : rules.fixed (rules.key f) = true ∨ rules.Blocked f ∨
    ∃ g ∈ items, stays g ∧ rules.key g ∈ rules.blockers f ∧ rules.key f ∈ rules.displaced g := by
  by_contra none_
  simp only [not_or, not_exists, not_and, Bool.not_eq_true] at none_
  obtain ⟨free, open_, apart⟩ := none_
  obtain ⟨a, b, rfl⟩ := append_of_mem member
  let others := a ++ b
  let early : α → Prop := fun g => rules.fixed (rules.key g) = true ∨ stays g ∧ rules.key g ∉ rules.blockers f
  let front := others.filter (early ·)
  let middle := (others.filter (¬early ·)).filter (stays ·)
  let back := (others.filter (¬early ·)).filter (¬stays ·)
  have perm : (front ++ f :: middle ++ back).Perm (a ++ f :: b) := by
    have inner : (middle ++ back).Perm (others.filter (¬early ·)) := by
      simpa [middle, back] using filter_append_perm (fun g => decide (stays g)) (others.filter (¬early ·))
    have outer : (front ++ others.filter (¬early ·)).Perm others := by
      simpa [front] using filter_append_perm (fun g => decide (early g)) others
    have late : (front ++ f :: (middle ++ back)).Perm (front ++ f :: others.filter (¬early ·)) := .append_left front (inner.cons f)
    have moved : (front ++ f :: others.filter (¬early ·)).Perm (f :: others) := perm_middle.trans (outer.cons f)
    rw [append_assoc, cons_append]
    exact late.trans (moved.trans perm_middle.symm)
  have staying := staying_of_orders nodup orders
  have distinct := ((perm.map rules.key).nodup_iff).mpr nodup
  have inside : ∀ g ∈ front ++ f :: middle ++ back, g ∈ a ++ f :: b := fun g => perm.mem_iff.mp
  have arrived : (rules.key f, f) ∈ rules.run (front ++ [f]) := by
    have unblocked : ¬(rules.blockers f).any (rules.holds (rules.run front)) = true := by
      rw [blocked_iff]
      rintro (blocked | ⟨key, blocks, g, found⟩)
      · exact open_ blocked
      obtain ⟨gFront, same, gFree, _⟩ := run_entries _ _ found
      simp only at gFront same gFree
      have gEarly : early g := by simpa [front] using (mem_filter.mp gFront).2
      rcases gEarly with fixed | ⟨_, outside⟩
      · rw [← same, gFree] at fixed
        cases fixed
      · exact outside (same ▸ blocks)
    rw [run_concat, mem_arrive unblocked]
    refine .inr ⟨rfl, free, ?_⟩
    intro g found
    rw [append_assoc, map_append, nodup_append] at distinct
    obtain ⟨gFront, same, _⟩ := run_entries _ _ found
    exact absurd same.symm (distinct.2.2 _ (mem_map_of_mem gFront) _ (by simp))
  have later : (rules.key f, f) ∈ rules.run (front ++ f :: middle) := by
    have shape : front ++ f :: middle = (front ++ [f]) ++ middle := by simp
    rw [shape, run_append]
    apply kept_of_undisplaced arrived
    intro front' g rest split
    have gMiddle : g ∈ middle := by simp [split]
    simp only [middle, mem_filter, decide_eq_true_eq] at gMiddle
    obtain ⟨⟨gOther, late⟩, gStays⟩ := gMiddle
    have blocks : rules.key g ∈ rules.blockers f := by
      by_contra outside
      exact late (.inr ⟨gStays, outside⟩)
    exact .inr (apart g (by simp [others] at gOther ⊢; tauto) gStays blocks)
  apply leaves ∘ (orders _ perm f member).mp
  rw [run_append]
  apply kept_of_undisplaced later
  intro front' g rest split
  have gBack : g ∈ back := by simp [split]
  simp only [back, mem_filter, decide_eq_true_eq] at gBack
  obtain ⟨⟨gOther, late⟩, gLeaves⟩ := gBack
  have gFree : rules.fixed (rules.key g) = false := by
    by_contra fixed
    exact late (.inl (by simpa using fixed))
  have gMember : g ∈ a ++ f :: b := by
    simp [others] at gOther ⊢
    tauto
  rw [← run_append]
  apply Or.inl
  apply blocked_iff.mpr
  rcases turnedAway_of_orders nodup orders gMember gLeaves gFree with blocked | ⟨h, hMember, hStays, blocks⟩
  · exact .inl blocked
  refine .inr ⟨_, blocks, h, staying.held ?_ ?_ h ?_ hStays⟩
  · rw [split] at distinct
    exact List.Nodup.sublist (List.Sublist.map _ (by simp)) distinct
  · intro g' member'
    apply inside g'
    rw [split]
    simp only [mem_append, mem_cons] at member' ⊢
    tauto
  have hOther : h ≠ f := by
    rintro rfl
    exact leaves hStays
  have hOthers : h ∈ others := by
    simp [hOther] at hMember
    simp [others, hMember]
  by_cases hEarly : early h
  · simp [front, hOthers, hEarly]
  · simp [middle, hOthers, hEarly, hStays]
end

theorem orders_iff_settled {items : List α} {stays : α → Prop} (nodup : (items.map rules.key).Nodup) :
    (∀ order, order.Perm items → ∀ f ∈ items, (rules.key f, f) ∈ rules.run order ↔ stays f) ↔ rules.Settled items stays := by
  constructor
  · intro orders
    exact ⟨staying_of_orders nodup orders, fun f member leaves => goes_of_orders nodup orders member leaves⟩
  · intro settled order perm f member
    exact settled.run_iff nodup perm member

end Rules

end Displacing
