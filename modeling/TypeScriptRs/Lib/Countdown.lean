import Mathlib.Data.Finset.Card

/-! What is left of a finite set while a search goes on, as a bound on the steps to come. -/
namespace Countdown

variable {α : Type*} {U : Finset α} {p q : α → Prop} [DecidablePred p] [DecidablePred q]

theorem card_le (fewer : ∀ a, q a → p a) : (U.filter q).card ≤ (U.filter p).card := by
  apply Finset.card_le_card
  intro a listed
  rw [Finset.mem_filter] at listed ⊢
  exact ⟨listed.1, fewer a listed.2⟩

theorem card_lt (fewer : ∀ a, q a → p a) {a : α} (inside : a ∈ U) (before : p a) (after : ¬q a) :
    (U.filter q).card < (U.filter p).card := by
  apply Finset.card_lt_card
  constructor
  · intro b listed
    rw [Finset.mem_filter] at listed ⊢
    exact ⟨listed.1, fewer b listed.2⟩
  · intro subset
    have member := subset (Finset.mem_filter.mpr ⟨inside, before⟩)
    exact after (Finset.mem_filter.mp member).2

end Countdown
