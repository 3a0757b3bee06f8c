import Mathlib.Data.List.TakeWhile
import TypeScriptRs.Globs.Pattern

/-! How a glob is matched against an input. -/
namespace TypeScriptRs.Globs
open Utf8 List

/-- The input before its first slash, and the input after that slash and the slashes that follow it. -/
def split (input : Text) : Text × Text :=
  (input.takeWhile (· ≠ '/'), (input.dropWhile (· ≠ '/')).dropWhile (· = '/'))

theorem split_shorter (c : Char) (input : Text) : (split (c :: input)).2.length < (c :: input).length := by
  unfold split
  by_cases slash : c = '/'
  · have short := (dropWhile_sublist (fun c => decide (c = '/')) (l := input)).length_le
    simpa [slash] using Nat.lt_succ_of_le short
  · have short := (dropWhile_sublist (fun c => decide (c = '/')) (l := input.dropWhile (· ≠ '/'))).length_le
    have shorter := (dropWhile_sublist (fun c => decide (c ≠ '/')) (l := input)).length_le
    simpa [slash] using Nat.lt_succ_of_le (short.trans shorter)

/-- The places at which `**` lets the rest of a pattern start. -/
def segmentStarts : Text → List Text
  | [] => []
  | c :: input => (c :: input) :: segmentStarts (split (c :: input)).2
termination_by input => input.length
decreasing_by exact split_shorter c input

/-- The places at which a star lets the rest of its segment start. -/
def charStarts (segment : Text) : List Text := segment.tails.dropLast

theorem sizeOf_append (a b : List Element) : sizeOf (a ++ b) + 1 = sizeOf a + sizeOf b := by
  induction a with
  | nil => simp; omega
  | cons e a ih => simp; omega

theorem sizeOf_sublist {a b : List Element} (sub : a.Sublist b) : sizeOf a ≤ sizeOf b := by
  induction sub with
  | slnil => exact Nat.le_refl _
  | cons e _ ih => simp; omega
  | cons_cons e _ ih => simp; omega

def matchElements (elems : Glob) (input : Text) : Bool :=
  match elems with
  | [] => input.isEmpty
  | .slash :: rest =>
    match input with
    | '/' :: input => matchElements rest (input.dropWhile (· = '/'))
    | _ => false
  | .starStar :: rest => rest.tail.isEmpty || (segmentStarts input).any fun later => matchElements rest.tail later
  | .literal text :: rest => text.isPrefixOf input && matchElements rest (input.drop text.length)
  | .star :: rest =>
    let segElems := rest.takeWhile (!·.isSlash)
    (segElems.isEmpty || (charStarts (split input).1).any fun later => matchElements segElems later) &&
      matchElements (rest.dropWhile (!·.isSlash)) (split input).2
  | .anyChar :: rest =>
    match input with
    | [] => false
    | c :: input => c ≠ '/' && matchElements rest input
  | .group alternatives :: rest => alternatives.attach.any fun ⟨alternative, _⟩ => matchElements (alternative ++ rest) input
  | .charRange _ low high :: rest =>
    match input with
    | [] => false
    | c :: input => c ≠ '/' && !(c < low || c > high) && matchElements rest input
termination_by sizeOf elems
decreasing_by
  all_goals simp_wf
  all_goals first
    | omega
    | have := sizeOf_sublist (tail_sublist rest)
      omega
    | have := sizeOf_sublist (takeWhile_sublist (fun e : Element => !e.isSlash) (l := rest))
      omega
    | have := sizeOf_sublist (dropWhile_sublist (fun e : Element => !e.isSlash) (l := rest))
      omega
    | rename_i member
      have := sizeOf_lt_of_mem member
      have := sizeOf_append alternative rest
      omega

theorem split_after (input : Text) : (split input).2.head? ≠ some '/' := by
  intro starts
  have stops := List.head?_dropWhile_not (fun c => decide (c = '/')) (input.dropWhile (· ≠ '/'))
  unfold split at starts
  rw [starts] at stops
  simp at stops

section
variable {rest : Glob} {input : Text}

theorem match_nil : matchElements [] input = true ↔ input = [] := by
  rw [matchElements, List.isEmpty_iff]

theorem match_slash : matchElements (.slash :: rest) input = true ↔
    ∃ later, input = '/' :: later ∧ matchElements rest (later.dropWhile (· = '/')) = true := by
  cases input with
  | nil => simp [matchElements]
  | cons c later =>
    by_cases slash : c = '/'
    · simp [matchElements, slash]
    · simp [matchElements, slash]

theorem match_starStar (some_ : rest ≠ []) : matchElements (.starStar :: .slash :: rest) input = true ↔
    ∃ later ∈ segmentStarts input, matchElements rest later = true := by
  rw [matchElements]
  simp [some_]

theorem match_starStar_last : matchElements [.starStar] input = true ∧ matchElements [.starStar, .slash] input = true := by
  constructor <;> simp [matchElements]

theorem match_literal {text : Text} : matchElements (.literal text :: rest) input = true ↔
    ∃ later, input = text ++ later ∧ matchElements rest later = true := by
  rw [matchElements, Bool.and_eq_true, isPrefixOf_iff_prefix]
  constructor
  · rintro ⟨⟨later, rfl⟩, found⟩
    exact ⟨later, rfl, by simpa using found⟩
  · rintro ⟨later, rfl, found⟩
    exact ⟨⟨later, rfl⟩, by simpa using found⟩

theorem match_star_slash {element : Element} (inside : element ∈ rest) (isSlash : element.isSlash = true) :
    matchElements (.star :: rest) input = false := by
  obtain ⟨first, back, split_⟩ : ∃ first back, rest.dropWhile (!·.isSlash) = first :: back := by
    cases found : rest.dropWhile (!·.isSlash) with
    | nil =>
      have none_ := dropWhile_eq_nil_iff.mp found element inside
      simp [isSlash] at none_
    | cons first back => exact ⟨first, back, rfl⟩
  have firstSlash : first = .slash := by
    have stops := List.head?_dropWhile_not (fun e : Element => !e.isSlash) rest
    rw [split_] at stops
    cases first <;> simp [Element.isSlash] at stops ⊢
  have stuck : matchElements (first :: back) (split input).2 = false := by
    rw [Bool.eq_false_iff, firstSlash]
    intro found
    obtain ⟨later, starts, _⟩ := match_slash.mp found
    exact split_after input (by simp [starts])
  rw [matchElements, split_, stuck, Bool.and_false]

theorem match_star (flat : ∀ e ∈ rest, e.isSlash = false) : matchElements (.star :: rest) input = true ↔
    (split input).2 = [] ∧ (rest = [] ∨ ∃ later ∈ charStarts (split input).1, matchElements rest later = true) := by
  have all : rest.takeWhile (!·.isSlash) = rest := takeWhile_eq_self_iff.mpr fun e member => by simp [flat e member]
  have none_ : rest.dropWhile (!·.isSlash) = [] := dropWhile_eq_nil_iff.mpr fun e member => by simp [flat e member]
  rw [matchElements, all, none_, Bool.and_eq_true, match_nil, and_comm, Bool.or_eq_true, List.any_eq_true, List.isEmpty_iff]

theorem match_anyChar : matchElements (.anyChar :: rest) input = true ↔
    ∃ c later, input = c :: later ∧ c ≠ '/' ∧ matchElements rest later = true := by
  cases input <;> simp [matchElements]

theorem match_charRange {negate : Bool} {low high : Char} : matchElements (.charRange negate low high :: rest) input = true ↔
    ∃ c later, input = c :: later ∧ c ≠ '/' ∧ (low ≤ c ∧ c ≤ high) ∧ matchElements rest later = true := by
  cases input <;> simp [matchElements, and_assoc]

theorem match_group {alternatives : List Glob} : matchElements (.group alternatives :: rest) input = true ↔
    ∃ alternative ∈ alternatives, matchElements (alternative ++ rest) input = true := by
  rw [matchElements]
  simp
end

def Glob.matchInput (glob : Glob) (input : Text) : Bool := matchElements glob input

end TypeScriptRs.Globs
