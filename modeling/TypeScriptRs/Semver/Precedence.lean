import Mathlib.Data.Prod.Lex
import Mathlib.Data.Sum.Order
import TypeScriptRs.Semver.Parsing

/-! Precedence of versions as an order, which the comparison is. -/
namespace TypeScriptRs.Semver
open Decimal List

abbrev IdentifierKey := ℕ ⊕ₗ Text

/-- A release comes after its prereleases; these compare by their identifiers, and a
longer list comes after its own beginning. -/
abbrev Precedence := ℕ ×ₗ ℕ ×ₗ ℕ ×ₗ WithTop (List IdentifierKey)

def identifierKey (text : Text) : IdentifierKey :=
  if text.all isAsciiDigit then toLex (.inl (valueOf (text.map digitValue))) else toLex (.inr text)

def prereleaseKey (prerelease : List Text) : WithTop (List IdentifierKey) :=
  if prerelease = [] then ⊤ else ↑(prerelease.map identifierKey)

def Version.precedence (v : Version) : Precedence :=
  toLex (v.major, toLex (v.minor, toLex (v.patch, prereleaseKey v.prerelease)))

section
variable {α β : Type} [LinearOrder α] [LinearOrder β] {a b : α}

def comparison (a b : α) : Int := orderingToComparison (cmp a b)

theorem comparison_of_lt (less : a < b) : comparison a b = comparisonLessThan := by
  rw [comparison, (cmp_eq_lt_iff a b).mpr less]
  rfl

theorem comparison_of_gt (more : b < a) : comparison a b = comparisonGreaterThan := by
  rw [comparison, (cmp_eq_gt_iff a b).mpr more]
  rfl

@[simp] theorem comparison_self (a : α) : comparison a a = comparisonEqualTo := by
  rw [comparison, cmp_self_eq_eq]
  rfl

theorem comparison_eq_zero : comparison a b = comparisonEqualTo ↔ a = b := by
  constructor
  · intro same
    rcases lt_trichotomy a b with less | equal | more
    · rw [comparison_of_lt less] at same
      exact absurd same (by decide)
    · exact equal
    · rw [comparison_of_gt more] at same
      exact absurd same (by decide)
  · rintro rfl
    exact comparison_self a

theorem comparison_le_zero : comparison a b ≤ 0 ↔ a ≤ b := by
  rcases lt_trichotomy a b with less | rfl | more
  · rw [comparison_of_lt less]
    exact iff_of_true (by decide) less.le
  · rw [comparison_self]
    exact iff_of_true (by decide) le_rfl
  · rw [comparison_of_gt more]
    exact iff_of_false (by decide) (not_le_of_gt more)

theorem comparison_swap (a b : α) : comparison a b = -comparison b a := by
  rcases lt_trichotomy a b with less | rfl | more
  · rw [comparison_of_lt less, comparison_of_gt less]
    rfl
  · rw [comparison_self]
    rfl
  · rw [comparison_of_gt more, comparison_of_lt more]
    rfl

theorem comparison_map {f : α → β} (up : a < b → f a < f b) (down : b < a → f b < f a) :
    comparison (f a) (f b) = comparison a b := by
  rcases lt_trichotomy a b with less | rfl | more
  · rw [comparison_of_lt less, comparison_of_lt (up less)]
  · rw [comparison_self, comparison_self]
  · rw [comparison_of_gt more, comparison_of_gt (down more)]

theorem comparison_toLex (a b : α) (x y : β) :
    comparison (toLex (a, x)) (toLex (b, y)) = thenWith (comparison a b) fun _ => comparison x y := by
  rcases lt_trichotomy a b with less | rfl | more
  · rw [comparison_of_lt less, comparison_of_lt (Prod.Lex.toLex_lt_toLex.mpr (.inl less))]
    rfl
  · rw [comparison_self]
    refine comparison_map (f := fun x => toLex (a, x)) ?_ ?_
    · exact fun less => Prod.Lex.toLex_lt_toLex.mpr (.inr ⟨rfl, less⟩)
    · exact fun more => Prod.Lex.toLex_lt_toLex.mpr (.inr ⟨rfl, more⟩)
  · rw [comparison_of_gt more, comparison_of_gt (Prod.Lex.toLex_lt_toLex.mpr (.inl more))]
    rfl

theorem comparison_cons (a b : α) (x y : List α) :
    comparison (a :: x) (b :: y) = thenWith (comparison a b) fun _ => comparison x y := by
  rcases lt_trichotomy a b with less | rfl | more
  · rw [comparison_of_lt less, comparison_of_lt (cons_lt_cons_iff.mpr (.inl less))]
    rfl
  · rw [comparison_self]
    refine comparison_map (f := fun x => a :: x) ?_ ?_
    · exact fun less => cons_lt_cons_iff.mpr (.inr ⟨rfl, less⟩)
    · exact fun more => cons_lt_cons_iff.mpr (.inr ⟨rfl, more⟩)
  · rw [comparison_of_gt more, comparison_of_gt (cons_lt_cons_iff.mpr (.inl more))]
    rfl
end

section
variable {left right : Text}

theorem digitValue_mono {c d : Char} (digit : isAsciiDigit c = true) (less : c < d) : digitValue c < digitValue d := by
  have low : '0'.toNat ≤ c.toNat := of_decide_eq_true (Bool.and_eq_true_iff.mp digit).1
  have above : c.toNat < d.toNat := less
  have zero : '0'.toNat = 48 := by decide
  unfold digitValue
  omega

theorem digits_mono (digits : left.all isAsciiDigit = true)
    (less : left < right) : left.map digitValue < right.map digitValue := by
  induction left generalizing right with
  | nil =>
    cases right with
    | nil => exact absurd less (lt_irrefl _)
    | cons d right => exact nil_lt_cons _ _
  | cons c left ih =>
    cases right with
    | nil => exact absurd less (not_lt_nil _)
    | cons d right =>
      have all := all_cons.symm.trans digits
      obtain ⟨first, rest⟩ := Bool.and_eq_true_iff.mp all
      rcases cons_lt_cons_iff.mp less with now | ⟨rfl, later⟩
      · exact cons_lt_cons_iff.mpr (.inl (digitValue_mono first now))
      · exact cons_lt_cons_iff.mpr (.inr ⟨rfl, ih rest later⟩)

theorem isNumericIdentifier_iff {text : Text} (part : isPrereleasePart text = true) :
    isNumericIdentifier text = text.all isAsciiDigit := by
  cases numeric : isNumericIdentifier text with
  | true => exact (all_of_isNumericIdentifier numeric).symm
  | false =>
    rcases Bool.or_eq_true_iff.mp part with yes | word
    · cases numeric.symm.trans yes
    cases text with
    | nil => cases word
    | cons c text =>
      have first : startsWord c = true := (Bool.and_eq_true_iff.mp word).1
      have other : isAsciiDigit c = false := by
        by_contra digit
        cases first.symm.trans (startsWord_of_digit (Bool.not_eq_false _ ▸ digit))
      simp [other]

theorem comparison_text (left right : Text) : orderingToComparison (cmp left right) = comparison left right := by
  have same (d d' : DecidableLT Text) : @cmp Text _ d left right = @cmp Text _ d' left right := by rw [Subsingleton.elim d d']
  exact congrArg orderingToComparison (same _ _)

theorem comparison_nat (m n : ℕ) : orderingToComparison (cmp m n) = comparison m n := rfl

theorem comparison_numeric (l : isNumericIdentifier left = true) (r : isNumericIdentifier right = true) (other : left ≠ right) :
    comparison (valueOf (left.map digitValue)) (valueOf (right.map digitValue)) =
      if comparison left.length right.length = comparisonEqualTo then comparison left right
      else comparison left.length right.length := by
  have lDigits := all_of_isNumericIdentifier l
  have rDigits := all_of_isNumericIdentifier r
  have lPlain := plain_of_isNumericIdentifier l
  have rPlain := plain_of_isNumericIdentifier r
  rcases lt_trichotomy left.length right.length with shorter | same | longer
  · have less := lPlain.valueOf_lt_of_length_lt rPlain (by simpa using shorter)
    rw [comparison_of_lt less, comparison_of_lt shorter]
    rfl
  · rw [if_pos (comparison_eq_zero.mpr same)]
    rcases lt_trichotomy left right with less | equal | more
    · have below := valueOf_lt_of_lex lPlain.1 (by simpa using same) (digits_mono lDigits less)
      rw [comparison_of_lt below, comparison_of_lt less]
    · exact absurd equal other
    · have below := valueOf_lt_of_lex rPlain.1 (by simpa using same.symm) (digits_mono rDigits more)
      rw [comparison_of_gt below, comparison_of_gt more]
  · have less := rPlain.valueOf_lt_of_length_lt lPlain (by simpa using longer)
    rw [comparison_of_gt less, comparison_of_gt longer]
    rfl

theorem comparison_inl (m n : ℕ) : comparison (toLex (.inl m) : IdentifierKey) (toLex (.inl n)) = comparison m n :=
  comparison_map (f := fun n => (toLex (.inl n) : IdentifierKey)) Sum.Lex.inl_lt_inl_iff.mpr Sum.Lex.inl_lt_inl_iff.mpr

theorem comparison_inr (s t : Text) : comparison (toLex (.inr s) : IdentifierKey) (toLex (.inr t)) = comparison s t :=
  comparison_map (f := fun t => (toLex (.inr t) : IdentifierKey)) Sum.Lex.inr_lt_inr_iff.mpr Sum.Lex.inr_lt_inr_iff.mpr

theorem comparePreReleaseIdentifier_eq (l : isPrereleasePart left = true) (r : isPrereleasePart right = true) :
    comparePreReleaseIdentifier left right = comparison (identifierKey left) (identifierKey right) := by
  by_cases same : left = right
  · rw [same, comparison_self]
    unfold comparePreReleaseIdentifier
    simp only [↓comparison_text, ↓comparison_nat, comparison_self, if_true]
  have differ : comparison left right ≠ comparisonEqualTo := fun zero => same (comparison_eq_zero.mp zero)
  have lNumeric := isNumericIdentifier_iff l
  have rNumeric := isNumericIdentifier_iff r
  unfold comparePreReleaseIdentifier identifierKey
  simp only [↓comparison_text, ↓comparison_nat, if_neg differ]
  cases ln : isNumericIdentifier left with
  | false =>
    rw [ln] at lNumeric
    cases rn : isNumericIdentifier right with
    | false =>
      rw [rn] at rNumeric
      simp only [Bool.or_false, ← lNumeric, ← rNumeric, Bool.false_eq_true, if_false]
      exact (comparison_inr left right).symm
    | true =>
      rw [rn] at rNumeric
      simp only [Bool.or_true, Bool.not_true, Bool.not_false, ← lNumeric, ← rNumeric, Bool.false_eq_true, if_true,
        if_false]
      exact (comparison_of_gt (Sum.Lex.inl_lt_inr _ _)).symm
  | true =>
    rw [ln] at lNumeric
    cases rn : isNumericIdentifier right with
    | false =>
      rw [rn] at rNumeric
      simp only [Bool.or_false, Bool.not_false, ← lNumeric, ← rNumeric, Bool.false_eq_true, if_true, if_false]
      exact (comparison_of_lt (Sum.Lex.inl_lt_inr _ _)).symm
    | true =>
      rw [rn] at rNumeric
      simp only [Bool.or_true, Bool.not_true, ← lNumeric, ← rNumeric, Bool.false_eq_true, if_true, if_false]
      rw [comparison_inl, getUintComponent_numeric ln, getUintComponent_numeric rn]
      have numbers := comparison_numeric ln rn same
      by_cases lf : valueOf (left.map digitValue) < 2 ^ 32
      · by_cases rf : valueOf (right.map digitValue) < 2 ^ 32
        · simp only [if_pos lf, if_pos rf]
        · simp only [if_pos lf, if_neg rf]
          exact numbers.symm
      · simp only [if_neg lf]
        exact numbers.symm

theorem compareIdentifiers_eq {left right : List Text} (l : ∀ t ∈ left, isPrereleasePart t = true)
    (r : ∀ t ∈ right, isPrereleasePart t = true) :
    compareIdentifiers left right = comparison (left.map identifierKey) (right.map identifierKey) := by
  induction left generalizing right with
  | nil =>
    cases right with
    | nil => rfl
    | cons b right =>
      exact comparison_of_lt (by simp)
  | cons a left ih =>
    cases right with
    | nil =>
      exact comparison_of_gt (by simp)
    | cons b right =>
      have later : compareIdentifiers left right = comparison (left.map identifierKey) (right.map identifierKey) :=
        ih (fun t listed => l t (mem_cons_of_mem a listed)) (fun t listed => r t (mem_cons_of_mem b listed))
      rw [map_cons, map_cons, comparison_cons, ← later,
        ← comparePreReleaseIdentifier_eq (l a (by simp)) (r b (by simp))]
      rfl

theorem comparePreReleaseIdentifiers_eq {left right : List Text} (l : ∀ t ∈ left, isPrereleasePart t = true)
    (r : ∀ t ∈ right, isPrereleasePart t = true) :
    comparePreReleaseIdentifiers left right = comparison (prereleaseKey left) (prereleaseKey right) := by
  unfold comparePreReleaseIdentifiers prereleaseKey
  by_cases none : left = []
  · by_cases none' : right = []
    · simp [none, none']
    · rw [if_pos none, if_neg none', if_pos none, if_neg none']
      exact (comparison_of_gt (WithTop.coe_lt_top _)).symm
  by_cases none' : right = []
  · rw [if_neg none, if_pos none', if_neg none, if_pos none']
    exact (comparison_of_lt (WithTop.coe_lt_top _)).symm
  · rw [if_neg none, if_neg none', if_neg none, if_neg none', compareIdentifiers_eq l r]
    exact (comparison_map (f := fun keys => ((keys : List IdentifierKey) : WithTop (List IdentifierKey)))
      WithTop.coe_lt_coe.mpr WithTop.coe_lt_coe.mpr).symm

theorem identifierKey_injective (l : isPrereleasePart left = true)
    (r : isPrereleasePart right = true) (same : identifierKey left = identifierKey right) : left = right := by
  by_contra other
  have lNumeric := isNumericIdentifier_iff l
  have rNumeric := isNumericIdentifier_iff r
  unfold identifierKey at same
  rw [← lNumeric, ← rNumeric] at same
  cases ln : isNumericIdentifier left with
  | false =>
    cases rn : isNumericIdentifier right with
    | false =>
      rw [ln, rn] at same
      exact other (Sum.inr_injective (toLex_inj.mp same))
    | true =>
      rw [ln, rn] at same
      cases toLex_inj.mp same
  | true =>
    cases rn : isNumericIdentifier right with
    | false =>
      rw [ln, rn] at same
      cases toLex_inj.mp same
    | true =>
      rw [ln, rn] at same
      have values : valueOf (left.map digitValue) = valueOf (right.map digitValue) :=
        Sum.inl_injective (toLex_inj.mp same)
      have numbers := comparison_numeric ln rn other
      rw [values, comparison_self] at numbers
      split at numbers
      · exact other (comparison_eq_zero.mp numbers.symm)
      · rename_i lengths
        exact lengths numbers.symm

theorem map_identifierKey_injective {left right : List Text} (l : ∀ t ∈ left, isPrereleasePart t = true)
    (r : ∀ t ∈ right, isPrereleasePart t = true) (same : left.map identifierKey = right.map identifierKey) :
    left = right := by
  induction left generalizing right with
  | nil => exact (map_eq_nil_iff.mp same.symm).symm
  | cons a left ih =>
    cases right with
    | nil => cases same
    | cons b right =>
      obtain ⟨first, rest⟩ := cons_eq_cons.mp same
      have head := identifierKey_injective (l a (by simp)) (r b (by simp)) first
      have tail := ih (fun t listed => l t (mem_cons_of_mem a listed))
        (fun t listed => r t (mem_cons_of_mem b listed)) rest
      rw [head, tail]

theorem prereleaseKey_injective {left right : List Text} (l : ∀ t ∈ left, isPrereleasePart t = true)
    (r : ∀ t ∈ right, isPrereleasePart t = true) (same : prereleaseKey left = prereleaseKey right) : left = right := by
  unfold prereleaseKey at same
  split at same
  · rename_i none
    split at same
    · rename_i none'
      rw [none, none']
    · exact absurd same WithTop.top_ne_coe
  · split at same
    · exact absurd same WithTop.coe_ne_top
    · exact map_identifierKey_injective l r (WithTop.coe_injective same)
end

variable {s t u : Text} {a b c : Version}

theorem prerelease_of_ok (parsed : tryParseVersion s = .ok a) : ∀ part ∈ a.prerelease, isPrereleasePart part = true := by
  obtain ⟨p, accepted, -, rfl⟩ := tryParseVersion_ok parsed
  exact accepted.prerelease

theorem compare_eq (left : tryParseVersion s = .ok a) (right : tryParseVersion t = .ok b) :
    a.compare (some b) = comparison a.precedence b.precedence := by
  unfold Version.compare Version.precedence
  rw [comparison_toLex, comparison_toLex, comparison_toLex,
    ← comparePreReleaseIdentifiers_eq (prerelease_of_ok left) (prerelease_of_ok right)]
  rfl

theorem precedence_inj (left : tryParseVersion s = .ok a) (right : tryParseVersion t = .ok b) :
    a.precedence = b.precedence ↔ { a with build := [] } = { b with build := [] } := by
  constructor
  · intro same
    obtain ⟨major, minor, patch, prerelease⟩ : a.major = b.major ∧ a.minor = b.minor ∧ a.patch = b.patch ∧
        prereleaseKey a.prerelease = prereleaseKey b.prerelease := by
      simpa [Version.precedence] using same
    have identifiers := prereleaseKey_injective (prerelease_of_ok left) (prerelease_of_ok right) prerelease
    simp [major, minor, patch, identifiers]
  · intro same
    obtain ⟨major, minor, patch, prerelease⟩ : a.major = b.major ∧ a.minor = b.minor ∧ a.patch = b.patch ∧
        a.prerelease = b.prerelease := by
      simpa using same
    simp [Version.precedence, major, minor, patch, prerelease]

/-- The comparison of accepted versions is their precedence, so it is antisymmetric up to
the build metadata, and transitive. -/
theorem compare_isPrecedence (first : tryParseVersion s = .ok a) (second : tryParseVersion t = .ok b)
    (third : tryParseVersion u = .ok c) :
    a.compare (some b) = comparison a.precedence b.precedence ∧
      a.compare (some b) = -b.compare (some a) ∧
      (a.compare (some b) = comparisonEqualTo ↔ { a with build := [] } = { b with build := [] }) ∧
      (a.compare (some b) ≤ 0 → b.compare (some c) ≤ 0 → a.compare (some c) ≤ 0) := by
  rw [compare_eq first second, compare_eq second first, compare_eq second third, compare_eq first third]
  refine ⟨rfl, comparison_swap _ _, comparison_eq_zero.trans (precedence_inj first second), ?_⟩
  rw [comparison_le_zero, comparison_le_zero, comparison_le_zero]
  exact le_trans

theorem compare_isPrecedence_overflow :
    (⟨1, 0, 0, [['a'], "9999999999".toList], []⟩ : Version).compare
        (some ⟨1, 0, 0, [['a'], "10000000000".toList], [['b']]⟩) = comparisonLessThan ∧
      (⟨1, 0, 0, [['a'], "9999999999".toList], []⟩ : Version).compare
        (some ⟨1, 0, 0, [['a'], "10000000000".toList], [['b']]⟩) =
        comparison (⟨1, 0, 0, [['a'], "9999999999".toList], []⟩ : Version).precedence
          (⟨1, 0, 0, [['a'], "10000000000".toList], [['b']]⟩ : Version).precedence :=
  ⟨by decide, (compare_isPrecedence (s := "1.0.0-a.9999999999".toList) (t := "1.0.0-a.10000000000+b".toList)
    (u := "1.0.0".toList) (c := ⟨1, 0, 0, [], []⟩) (by decide) (by decide) (by decide)).1⟩

end TypeScriptRs.Semver
