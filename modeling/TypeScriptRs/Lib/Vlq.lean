import Mathlib.Tactic.Linarith

/-! Variable-length base-32 groups, lowest first, with the continuation bit 32. -/
namespace Vlq

def groups (n : Nat) : List Nat :=
  if n < 32 then [n] else (n % 32 + 32) :: groups (n / 32)
termination_by n
decreasing_by omega

theorem groups_last {n : Nat} (small : n < 32) : groups n = [n] := by
  rw [groups, if_pos small]

theorem groups_more {n : Nat} (large : ¬ n < 32) : groups n = (n % 32 + 32) :: groups (n / 32) := by
  rw [groups, if_neg large]

theorem groups_digit (n : Nat) : ∀ d ∈ groups n, d < 64 := by
  induction n using Nat.strongRecOn with
  | ind n ih =>
    intro d hd
    by_cases small : n < 32
    · rw [groups_last small] at hd
      have he : d = n := by simpa using hd
      omega
    · rw [groups_more small] at hd
      rcases List.mem_cons.mp hd with hd | hd
      · omega
      · exact ih (n / 32) (by omega) d hd

theorem groups_nonempty (n : Nat) : groups n ≠ [] := by
  rw [groups]
  split <;> simp

/-- A signed number as the natural number whose lowest bit is the sign. -/
def fold (x : Int) : Nat := if x < 0 then 2 * x.natAbs + 1 else 2 * x.natAbs

def unfold (n : Nat) : Int := if n % 2 = 0 then (n / 2 : Nat) else -((n / 2 : Nat) : Int)

theorem unfold_fold (x : Int) : unfold (fold x) = x := by
  unfold fold Vlq.unfold
  split <;> split <;> omega

theorem fold_bound {x : Int} (low : -2 ^ 30 < x) (high : x < 2 ^ 30) : fold x < 2 ^ 31 := by
  unfold fold
  norm_num at low high ⊢
  split <;> omega

end Vlq
