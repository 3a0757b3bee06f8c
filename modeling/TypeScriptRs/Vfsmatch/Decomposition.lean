import TypeScriptRs.Vfsmatch.Letters

/-! The names that the segments of a component match. -/
namespace TypeScriptRs.Vfsmatch
open Machine Utf8 List

/-- A name can be taken apart: its parts are equal to the literals, single characters, and runs without slashes. -/
inductive Decomposes (p : GlobPattern) : List Segment → Text → Prop
  | nil : Decomposes p [] []
  | literal {text part value : Text} {rest : List Segment} : p.stringsEqual text part = true → Decomposes p rest value →
      Decomposes p (.literal text :: rest) (part ++ value)
  | question {c : Char} {value : Text} {rest : List Segment} : c ≠ '/' → Decomposes p rest value →
      Decomposes p (.question :: rest) (c :: value)
  | star {run value : Text} {rest : List Segment} : '/' ∉ run → Decomposes p rest value → Decomposes p (.star :: rest) (run ++ value)

def Starless (segments : List Segment) : Prop := .star ∉ segments

def span : List Segment → Nat
  | [] => 0
  | .literal text :: rest => text.length + span rest
  | .question :: rest => 1 + span rest
  | .star :: rest => span rest

variable {p : GlobPattern} {segments first second : List Segment} {value x y : Text}

theorem stringsEqual_sizes {a b : Text} (equal : p.stringsEqual a b = true) : a.length = b.length ∧ bytes a = bytes b := by
  unfold GlobPattern.stringsEqual at equal
  split at equal
  · obtain rfl := of_decide_eq_true equal
    exact ⟨rfl, rfl⟩
  have same : toAsciiLowercase a = toAsciiLowercase b := of_decide_eq_true equal
  constructor
  · have lengths := congrArg List.length same
    simpa [toAsciiLowercase] using lengths
  · rw [← bytes_lowercase a, same, bytes_lowercase]

theorem Decomposes.append (left : Decomposes p first x) (right : Decomposes p second y) : Decomposes p (first ++ second) (x ++ y) := by
  induction left with
  | nil => exact right
  | literal equal later ih =>
    rw [append_assoc]
    exact .literal equal ih
  | question other later ih => exact .question other ih
  | star free later ih =>
    rw [append_assoc]
    exact .star free ih

theorem Decomposes.split (whole : Decomposes p (first ++ second) value) :
    ∃ x y, value = x ++ y ∧ Decomposes p first x ∧ Decomposes p second y := by
  induction first generalizing value with
  | nil => exact ⟨[], value, rfl, .nil, whole⟩
  | cons segment first ih =>
    cases whole with
    | @literal text part _ _ equal later =>
      obtain ⟨x, y, rfl, left, right⟩ := ih later
      exact ⟨part ++ x, y, by rw [append_assoc], .literal equal left, right⟩
    | @question c _ _ other later =>
      obtain ⟨x, y, rfl, left, right⟩ := ih later
      exact ⟨c :: x, y, rfl, .question other left, right⟩
    | @star run _ _ free later =>
      obtain ⟨x, y, rfl, left, right⟩ := ih later
      exact ⟨run ++ x, y, by rw [append_assoc], .star free left, right⟩

theorem span_append : span (first ++ second) = span first + span second := by
  induction first with
  | nil => exact (Nat.zero_add _).symm
  | cons segment first ih => cases segment <;> simp [span, ih, Nat.add_assoc]

theorem Decomposes.length (decomposed : Decomposes p segments value) (starless : Starless segments) : value.length = span segments := by
  induction decomposed with
  | nil => rfl
  | literal equal later ih =>
    have size := (stringsEqual_sizes equal).1
    rw [length_append, ih fun listed => starless (mem_cons_of_mem _ listed), span, size]
  | question other later ih =>
    rw [length_cons, ih fun listed => starless (mem_cons_of_mem _ listed), span, Nat.add_comm]
  | star free later ih => exact absurd mem_cons_self starless

theorem Decomposes.part_unique {x' y' : Text} (starless : Starless first) (left : Decomposes p first x) (left' : Decomposes p first x')
    (same : x ++ y = x' ++ y') : x = x' ∧ y = y' :=
  append_inj same ((left.length starless).trans (left'.length starless).symm)

theorem Decomposes.nil_iff : Decomposes p [] value ↔ value = [] := by
  constructor
  · rintro ⟨⟩
    rfl
  · rintro rfl
    exact .nil

def Filled (segments : List Segment) : Prop := .literal [] ∉ segments

theorem decomposes_nil_iff (filled : Filled segments) : Decomposes p segments [] ↔ ∀ segment ∈ segments, segment = .star := by
  induction segments with
  | nil => exact iff_of_true .nil (by simp)
  | cons segment segments ih =>
    have filled' : Filled segments := fun listed => filled (mem_cons_of_mem _ listed)
    rw [forall_mem_cons, ← ih filled']
    constructor
    · intro whole
      generalize empty : ([] : Text) = value at whole
      cases whole with
      | @literal text part _ _ equal later =>
        obtain ⟨rfl, rfl⟩ := append_eq_nil_iff.mp empty.symm
        have none := (stringsEqual_sizes equal).1
        rw [eq_nil_of_length_eq_zero none] at filled
        exact absurd mem_cons_self filled
      | question other later => cases empty
      | star free later =>
        obtain ⟨rfl, rfl⟩ := append_eq_nil_iff.mp empty.symm
        exact ⟨rfl, later⟩
    · rintro ⟨rfl, later⟩
      exact @Decomposes.star p [] [] segments (by simp) later

theorem parseSegmentsFrom_filled (literal value : Text) : Filled (parseSegmentsFrom literal value) := by
  have filled : ∀ text : Text, .literal [] ∉ literalSegment text := by
    intro text
    unfold literalSegment
    split
    · simp
    · rename_i some_
      simpa using Ne.symm some_
  induction value generalizing literal with
  | nil => exact filled literal
  | cons c value ih =>
    unfold parseSegmentsFrom Filled
    split
    · simp only [mem_append, mem_cons, reduceCtorEq, false_or, not_or]
      exact ⟨filled literal, ih []⟩
    · split
      · simp only [mem_append, mem_cons, reduceCtorEq, false_or, not_or]
        exact ⟨filled literal, ih []⟩
      · exact ih _

end TypeScriptRs.Vfsmatch
