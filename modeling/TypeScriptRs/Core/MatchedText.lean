import TypeScriptRs.Core.Pattern
import TypeScriptRs.Lsconv.Converters

/-! The text that the star of a pattern stands for. -/
namespace TypeScriptRs.Core
open Utf8 Machine Paths List
open Lsconv (toUsize)

variable {before after candidate : Text}

def subtractOverflow : String := "attempt to subtract with overflow"

/-- The difference of two lengths: where overflow is not checked it wraps around. -/
def subUsize (overflowChecks : Bool) (a b : Nat) : Outcome Nat :=
  if overflowChecks && a < b then .panic subtractOverflow else .ok (toUsize (a - b))

theorem toUsize_add (x y : Int) : toUsize (toUsize x + y) = toUsize (x + y) := by
  have wrapped : ((toUsize x : Nat) : Int) = x % 2 ^ 64 := Int.toNat_of_nonneg (Int.emod_nonneg x (by decide))
  unfold toUsize at wrapped ⊢
  rw [wrapped, Int.emod_add_emod]

theorem toUsize_nat {n : Nat} (small : n < 2 ^ 64) : toUsize n = n := by
  unfold toUsize
  omega

def Pattern.matchedText (overflowChecks : Bool) (p : Pattern) (candidate : Text) : Outcome Text := do
  if ← p.matches_ candidate then
    if p.starIndex = -1 then pure []
    else do
      let surplus ← subUsize overflowChecks (bytes candidate) (bytes p.text)
      sliced (slice candidate p.starOffset (toUsize (surplus + p.starOffset + 1)))
  else .panic "candidate does not match pattern"

/-- A text begins and ends as the pattern does, but is too short to do so one after the other. -/
def Overlaps (before after candidate : Text) : Prop :=
  before <+: candidate ∧ after <:+ candidate ∧ bytes candidate < bytes before + bytes after

theorem split_of_long (begins : before <+: candidate) (ends : after <:+ candidate)
    (long : bytes before + bytes after ≤ bytes candidate) : ∃ m, candidate = before ++ m ++ after := by
  obtain ⟨rest, rfl⟩ := begins
  rw [bytes_append] at long
  rcases suffix_or_suffix_of_suffix ends (suffix_append before rest) with ⟨m, rfl⟩ | ⟨m, rfl⟩
  · exact ⟨m, (append_assoc before m after).symm⟩
  cases m with
  | nil => exact ⟨[], by simp⟩
  | cons c m =>
    have positive := c.utf8Size_pos
    rw [cons_append, bytes_cons, bytes_append] at long
    omega

theorem split_or_overlaps (begins : before <+: candidate) (ends : after <:+ candidate) :
    (∃ m, candidate = before ++ m ++ after) ∨ Overlaps before after candidate := by
  rcases Nat.lt_or_ge (bytes candidate) (bytes before + bytes after) with short | long
  · exact .inr ⟨begins, ends, short⟩
  · exact .inl (split_of_long begins ends long)

theorem not_overlaps_split (before m after : Text) : ¬ Overlaps before after (before ++ m ++ after) := by
  rintro ⟨-, -, short⟩
  simp only [bytes_append] at short
  omega

theorem tryParsePattern_starred (plain : '*' ∉ before) (plain' : '*' ∉ after) :
    tryParsePattern (before ++ '*' :: after) = ⟨before ++ '*' :: after, bytes before⟩ := by
  have starred : '*' ∈ before ++ '*' :: after := by simp
  have front : (before ++ '*' :: after).takeWhile (· ≠ '*') = before := Split.takeWhile_append_cons plain after
  have rest : (before ++ '*' :: after).drop (before.length + 1) = after := by simp [drop_append]
  unfold tryParsePattern
  rw [if_neg (not_not.mpr starred)]
  dsimp only
  rw [front, rest, if_neg plain']

/-- Between the two parts of the pattern the slice is taken, unless the difference of the lengths is checked and negative. -/
theorem matchedText_split (overflowChecks : Bool) (before m after : Text) (addressed : bytes (before ++ m ++ after) < 2 ^ 64) :
    Pattern.matchedText overflowChecks ⟨before ++ '*' :: after, bytes before⟩ (before ++ m ++ after) =
      if overflowChecks = true ∧ m = [] then .panic subtractOverflow else .ok m := by
  have begins : before.isPrefixOf (before ++ m ++ after) = true := by simp
  have ends : after.isSuffixOf (before ++ m ++ after) = true := isSuffixOf_iff_suffix.mpr (suffix_append (before ++ m) after)
  have index : ((bytes before : Nat) : Int) ≠ -1 := by omega
  have star : '*'.utf8Size = 1 := rfl
  have empty : bytes m < 1 ↔ m = [] := by
    refine ⟨fun small => ?_, fun none => by simp [none]⟩
    by_contra some_
    have := bytes_pos some_
    omega
  simp only [bytes_append] at addressed
  have short : bytes (before ++ m ++ after) < bytes (before ++ '*' :: after) ↔ m = [] := by
    simp only [bytes_append, bytes_cons, star, ← empty]
    omega
  have stop : toUsize (toUsize ((bytes (before ++ m ++ after) : Nat) - (bytes (before ++ '*' :: after) : Nat)) + bytes before + 1) =
      bytes before + bytes m := by
    have exact_ : ((bytes before + bytes m : Nat) : Int) =
        (bytes (before ++ m ++ after) : Nat) - (bytes (before ++ '*' :: after) : Nat) + (bytes before + 1) := by
      simp only [bytes_append, bytes_cons, star]
      push_cast
      omega
    rw [Int.add_assoc, toUsize_add, ← exact_, toUsize_nat (by omega)]
  unfold Pattern.matchedText
  rw [matches_starred, begins, ends]
  simp only [Outcome.monad_bind, Outcome.monad_pure, Outcome.bind_ok, Bool.and_self, if_true, index, if_false, subUsize,
    Pattern.starOffset, Int.toNat_natCast, Bool.and_eq_true, decide_eq_true_eq, short]
  split
  · rfl
  · rw [Outcome.bind_ok, stop, slice_append]
    rfl

structure MatchesExactly (overflowChecks : Bool) (before after candidate : Text) (p : Pattern) : Prop where
  matches_ : ∃ result, p.matches_ candidate = .ok result ∧ (result = true ↔ ∃ m, candidate = before ++ m ++ after)
  matchedText : ∀ m, candidate = before ++ m ++ after → p.matchedText overflowChecks candidate = .ok m

/-- The pattern matches exactly its texts, unless they overlap or leave nothing to the star where overflow is checked. -/
theorem matchesExactly_iff (overflowChecks : Bool) {before after candidate : Text} (plain : '*' ∉ before) (plain' : '*' ∉ after)
    (addressed : bytes candidate < 2 ^ 64) :
    MatchesExactly overflowChecks before after candidate (tryParsePattern (before ++ '*' :: after)) ↔
      ¬ Overlaps before after candidate ∧ (overflowChecks = true → candidate ≠ before ++ after) := by
  rw [tryParsePattern_starred plain plain']
  have found := matches_starred before after candidate
  by_cases splits : ∃ m, candidate = before ++ m ++ after
  · obtain ⟨m, rfl⟩ := splits
    have cut := matchedText_split overflowChecks before m after addressed
    have whole : before ++ m ++ after = before ++ after ↔ m = [] := by simp
    constructor
    · intro exact_
      have text := exact_.matchedText m rfl
      refine ⟨not_overlaps_split before m after, fun checked empty => ?_⟩
      rw [cut, if_pos ⟨checked, whole.mp empty⟩] at text
      cases text
    rintro ⟨-, filled⟩
    rw [List.isPrefixOf_iff_prefix.mpr ⟨m ++ after, (append_assoc before m after).symm⟩,
      isSuffixOf_iff_suffix.mpr (suffix_append (before ++ m) after)] at found
    refine ⟨⟨true, found, iff_of_true rfl ⟨m, rfl⟩⟩, fun m' same => ?_⟩
    have : m' = m := append_cancel_left (append_cancel_right same.symm)
    rw [this, cut, if_neg fun both => filled both.1 (whole.mpr both.2)]
  constructor
  · intro exact_
    obtain ⟨result, ran, correct⟩ := exact_.matches_
    have unmatched : result = false := by
      cases result with
      | false => rfl
      | true => exact absurd (correct.mp rfl) splits
    rw [unmatched, found, Outcome.ok.injEq] at ran
    refine ⟨fun overlaps => ?_, fun _ whole => splits ⟨[], by rw [whole]; simp⟩⟩
    rw [List.isPrefixOf_iff_prefix.mpr overlaps.1, isSuffixOf_iff_suffix.mpr overlaps.2.1] at ran
    cases ran
  · rintro ⟨apart, -⟩
    refine ⟨⟨_, found, iff_of_false (fun both => ?_) splits⟩, fun m shape => absurd ⟨m, shape⟩ splits⟩
    rw [Bool.and_eq_true, isPrefixOf_iff_prefix, isSuffixOf_iff_suffix] at both
    exact (split_or_overlaps both.1 both.2).elim splits apart

theorem matchesExactly_iff_paths :
    MatchesExactly true "src/".toList ".ts".toList "src/a.ts".toList (tryParsePattern ("src/".toList ++ '*' :: ".ts".toList)) ↔
      ¬ Overlaps "src/".toList ".ts".toList "src/a.ts".toList ∧ (true = true → "src/a.ts".toList ≠ "src/".toList ++ ".ts".toList) :=
  matchesExactly_iff true (by decide) (by decide) (by decide)

/-- A text whose two ends share a character is matched, and its middle is sliced from behind its end. -/
theorem overlap_panics : (tryParsePattern "ab*ba".toList).matches_ "aba".toList = .ok true ∧
    (¬ ∃ m, "aba".toList = "ab".toList ++ m ++ "ba".toList) ∧
    Pattern.matchedText true (tryParsePattern "ab*ba".toList) "aba".toList = .panic subtractOverflow ∧
    Pattern.matchedText false (tryParsePattern "ab*ba".toList) "aba".toList = .panic notBoundary := by
  refine ⟨by decide, ?_, by decide, by decide⟩
  rintro ⟨m, shape⟩
  have := congrArg List.length shape
  simp at this

end TypeScriptRs.Core
