import Mathlib.Data.List.DropRight
import Mathlib.Data.List.Forall2

/-! Lists cut at blanks, and at a doubled separator. -/
namespace Words
open List

variable {α : Type}

section
variable (blank : α → Bool)

def trim (xs : List α) : List α := (xs.dropWhile blank).rdropWhile blank

def words (xs : List α) : List (List α) := (xs.splitOnP blank).filter fun word => !word.isEmpty

def AllBlank (gap : List α) : Prop := ∀ x ∈ gap, blank x = true

def IsWord (word : List α) : Prop := word ≠ [] ∧ ∀ x ∈ word, blank x = false

def Ends (rest : List α) : Prop := ∀ x, rest.head? = some x → blank x = true

inductive Spaced : List (List α) → List α → Prop
  | none {gap : List α} : AllBlank blank gap → Spaced [] gap
  | word {gap word rest : List α} {later : List (List α)} : AllBlank blank gap → IsWord blank word → Ends blank rest →
      Spaced later rest → Spaced (word :: later) (gap ++ word ++ rest)
end

variable {blank : α → Bool}

section
variable {x : α} {gap word xs front back : List α} {list : List (List α)}

theorem words_nil : words blank [] = [] := by simp [words]

theorem words_blank_cons (gap : blank x = true) (xs : List α) : words blank (x :: xs) = words blank xs := by
  unfold words
  rw [splitOnP_cons_eq_if_modifyHead, if_pos gap]
  rfl

theorem words_gap_append (blanks : AllBlank blank gap) (xs : List α) : words blank (gap ++ xs) = words blank xs := by
  induction gap with
  | nil => rfl
  | cons x gap ih =>
    rw [cons_append, words_blank_cons (blanks x (by simp))]
    exact ih fun y listed => blanks y (mem_cons_of_mem _ listed)

theorem words_word (whole : IsWord blank word) : words blank word = [word] := by
  unfold words
  rw [splitOnP_eq_singleton whole.2]
  simp [whole.1]

theorem words_word_append {rest : List α} (whole : IsWord blank word) (ends : Ends blank rest) :
    words blank (word ++ rest) = word :: words blank rest := by
  cases rest with
  | nil => rw [append_nil, words_word whole, words_nil]
  | cons x rest =>
    have gap : blank x = true := ends x rfl
    rw [words_blank_cons gap]
    unfold words
    rw [splitOnP_append_cons_of_forall_mem whole.2 x gap, filter_cons_of_pos (by simp [whole.1])]

theorem Spaced.words_eq (spaced : Spaced blank list xs) : words blank xs = list := by
  induction spaced with
  | @none gap blanks =>
    rw [← append_nil gap, words_gap_append blanks, words_nil]
  | word blanks whole ends _ ih => rw [append_assoc, words_gap_append blanks, words_word_append whole ends, ih]

theorem allBlank_takeWhile (xs : List α) : AllBlank blank (xs.takeWhile blank) := fun _ listed =>
  mem_takeWhile_imp listed

theorem ends_dropWhile (xs : List α) : Ends blank (xs.dropWhile fun x => !blank x) := by
  intro x first
  have stopped := List.head?_dropWhile_not (fun x => !blank x) xs
  rw [first] at stopped
  simpa using stopped

theorem spaced_words (xs : List α) : Spaced blank (words blank xs) xs := by
  induction long : xs.length using Nat.strong_induction_on generalizing xs with
  | _ n ih =>
    have cut : xs.takeWhile blank ++ xs.dropWhile blank = xs := takeWhile_append_dropWhile
    have gap : AllBlank blank (xs.takeWhile blank) := allBlank_takeWhile xs
    cases core : xs.dropWhile blank with
    | nil =>
      have blanks : AllBlank blank xs := fun x listed => dropWhile_eq_nil_iff.mp core x listed
      rw [← append_nil xs, words_gap_append blanks, words_nil, append_nil]
      exact .none blanks
    | cons x rest =>
      have first : blank x = false := by
        have stopped := List.head?_dropWhile_not blank xs
        rw [core] at stopped
        simpa using stopped
      have whole : IsWord blank ((x :: rest).takeWhile fun y => !blank y) := by
        refine ⟨by simp [first], ?_⟩
        intro y listed
        simpa using mem_takeWhile_imp listed
      have ends : Ends blank ((x :: rest).dropWhile fun y => !blank y) := ends_dropWhile _
      have again : (x :: rest).takeWhile (fun y => !blank y) ++ (x :: rest).dropWhile (fun y => !blank y) = x :: rest :=
        takeWhile_append_dropWhile
      have shape : xs = xs.takeWhile blank ++ (x :: rest).takeWhile (fun y => !blank y) ++
          (x :: rest).dropWhile (fun y => !blank y) := by
        rw [append_assoc, again, ← core, cut]
      have shorter : ((x :: rest).dropWhile fun y => !blank y).length < n := by
        have lengths := congrArg List.length shape
        have filled := length_pos_iff.mpr whole.1
        simp only [length_append] at lengths
        omega
      have spaced := Spaced.word gap whole ends (ih _ shorter _ rfl)
      rw [← shape] at spaced
      rw [spaced.words_eq]
      exact spaced

theorem words_eq_iff : words blank xs = list ↔ Spaced blank list xs := by
  constructor
  · rintro rfl
    exact spaced_words xs
  · exact Spaced.words_eq

theorem Spaced.isWord (spaced : Spaced blank list xs) (listed : word ∈ list) : IsWord blank word := by
  induction spaced with
  | none => cases listed
  | word _ whole _ _ ih =>
    rcases mem_cons.mp listed with rfl | later
    · exact whole
    · exact ih later

theorem isWord_of_mem (listed : word ∈ words blank xs) : IsWord blank word :=
  (spaced_words xs).isWord listed

theorem Spaced.mem (spaced : Spaced blank list xs) (listed : x ∈ xs) : blank x = true ∨ ∃ word ∈ list, x ∈ word := by
  induction spaced with
  | none blanks => exact .inl (blanks x listed)
  | word blanks _ _ _ ih =>
    rcases mem_append.mp listed with front | rest
    · rcases mem_append.mp front with gap | inside
      · exact .inl (blanks x gap)
      · exact .inr ⟨_, by simp, inside⟩
    · rcases ih rest with gap | ⟨other, member, inside⟩
      · exact .inl gap
      · exact .inr ⟨other, mem_cons_of_mem _ member, inside⟩

theorem Spaced.gap_append (blanks : AllBlank blank gap) (spaced : Spaced blank list xs) : Spaced blank list (gap ++ xs) := by
  have both : ∀ {front : List α}, AllBlank blank front → AllBlank blank (gap ++ front) := by
    intro front blanks' x listed
    rcases mem_append.mp listed with early | late
    · exact blanks x early
    · exact blanks' x late
  cases spaced with
  | none front => exact .none (both front)
  | word front whole ends later =>
    rw [← append_assoc, ← append_assoc]
    exact .word (both front) whole ends later

theorem spaced_intercalate {space : α} (gap : blank space = true)
    (each : ∀ word ∈ list, IsWord blank word) : Spaced blank list ([space].intercalate list) := by
  induction list with
  | nil => exact .none (by rintro _ ⟨⟩)
  | cons word later ih =>
    have tail := ih fun other listed => each other (mem_cons_of_mem _ listed)
    have whole := each word (by simp)
    cases later with
    | nil =>
      have spaced : Spaced blank [word] ([] ++ word ++ []) := .word (by rintro _ ⟨⟩) whole (by rintro _ ⟨⟩) tail
      rw [intercalate_singleton]
      rwa [nil_append, append_nil] at spaced
    | cons second later =>
      have ends : Ends blank ([space] ++ [space].intercalate (second :: later)) := by
        rintro x ⟨⟩
        exact gap
      have blanks : AllBlank blank [space] := by
        intro x listed
        rw [mem_singleton.mp listed]
        exact gap
      have spaced : Spaced blank (word :: second :: later)
          ([] ++ word ++ ([space] ++ [space].intercalate (second :: later))) :=
        .word (by rintro _ ⟨⟩) whole ends (tail.gap_append blanks)
      rw [intercalate_cons_of_ne_nil (cons_ne_nil _ _), append_assoc]
      exact spaced

theorem Spaced.append_gap (spaced : Spaced blank list xs) (blanks : AllBlank blank gap) : Spaced blank list (xs ++ gap) := by
  induction spaced with
  | none front =>
    refine .none ?_
    intro x listed
    rcases mem_append.mp listed with early | late
    · exact front x early
    · exact blanks x late
  | @word front word rest later front' whole ends _ ih =>
    rw [append_assoc]
    refine .word front' whole ?_ ih
    intro x first
    cases rest with
    | nil => exact blanks x (mem_of_head? first)
    | cons y rest => exact ends x first

theorem words_append_gap (xs : List α) (blanks : AllBlank blank gap) : words blank (xs ++ gap) = words blank xs :=
  ((spaced_words xs).append_gap blanks).words_eq

theorem trim_shape (blank : α → Bool) (xs : List α) :
    ∃ front back, AllBlank blank front ∧ AllBlank blank back ∧ xs = front ++ trim blank xs ++ back := by
  refine ⟨xs.takeWhile blank, (xs.dropWhile blank).rtakeWhile blank, allBlank_takeWhile xs, ?_, ?_⟩
  · exact fun x listed => mem_rtakeWhile_imp listed
  · unfold trim
    rw [append_assoc, rdropWhile_append_rtakeWhile, takeWhile_append_dropWhile]

theorem words_trim (xs : List α) : words blank (trim blank xs) = words blank xs := by
  obtain ⟨front, back, blanks, blanks', shape⟩ := trim_shape blank xs
  conv => rhs; rw [shape]
  rw [words_append_gap _ blanks', words_gap_append blanks]

theorem words_eq_nil : words blank xs = [] ↔ AllBlank blank xs := by
  rw [words_eq_iff]
  constructor
  · intro spaced
    cases spaced with
    | none blanks => exact blanks
  · exact .none

theorem trim_eq_nil : trim blank xs = [] ↔ AllBlank blank xs := by
  constructor
  · intro none
    rw [← words_eq_nil, ← words_trim, none, words_nil]
  · intro blanks
    unfold trim
    rw [dropWhile_eq_nil_iff.mpr blanks, rdropWhile_nil]

theorem trim_of_isWord_around (blanks : AllBlank blank front) (whole : IsWord blank word)
    (blanks' : AllBlank blank back) : trim blank (front ++ word ++ back) = word := by
  obtain ⟨x, rest, rfl⟩ := exists_cons_of_ne_nil whole.1
  unfold trim
  rw [append_assoc, dropWhile_append_of_pos blanks, cons_append,
    dropWhile_cons_of_neg (by simp [whole.2 x]), ← cons_append]
  unfold List.rdropWhile
  rw [reverse_append, dropWhile_append_of_pos fun y listed => blanks' y (mem_reverse.mp listed)]
  have last : (x :: rest).reverse.dropWhile blank = (x :: rest).reverse := by
    rw [dropWhile_eq_self_iff]
    intro filled
    have listed : (x :: rest).reverse[0] ∈ x :: rest := mem_reverse.mp (getElem_mem filled)
    exact Bool.eq_false_iff.mp (whole.2 _ listed)
  rw [last, reverse_reverse]

theorem trim_of_isWord (whole : IsWord blank word) : trim blank word = word := by
  have around : trim blank ([] ++ word ++ []) = word :=
    trim_of_isWord_around (by rintro _ ⟨⟩) whole (by rintro _ ⟨⟩)
  rwa [nil_append, append_nil] at around

theorem words_eq_singleton : words blank xs = [word] ↔ IsWord blank word ∧ trim blank xs = word := by
  constructor
  · intro one
    have spaced := words_eq_iff.mp one
    cases spaced with
    | word blanks whole ends later =>
      cases later with
      | none blanks' => exact ⟨whole, trim_of_isWord_around blanks whole blanks'⟩
  · rintro ⟨whole, rfl⟩
    rw [← words_trim, words_word whole]

theorem words_append (ends : Ends blank back) : words blank (front ++ back) = words blank front ++ words blank back := by
  generalize found : words blank front = list
  have spaced := words_eq_iff.mp found
  clear found
  induction spaced with
  | none blanks => exact words_gap_append blanks back
  | @word gap word rest later blanks whole ends' _ ih =>
    have ends'' : Ends blank (rest ++ back) := by
      intro x first
      cases rest with
      | nil => exact ends x first
      | cons y rest => exact ends' x first
    rw [append_assoc, append_assoc, words_gap_append blanks, words_word_append whole ends'', ih,
      cons_append]

theorem map_words_of_tails {list' : List (List α)}
    (tails : List.Forall₂ (fun a b => ∃ tail, AllBlank blank tail ∧ a = b ++ tail) list list') :
    list.map (words blank) = list'.map (words blank) := by
  induction tails with
  | nil => rfl
  | cons head _ ih =>
    obtain ⟨tail, blanks, rfl⟩ := head
    rw [map_cons, map_cons, words_append_gap _ blanks, ih]
end

variable [DecidableEq α]

def splitPair (sep : α) : List α → List (List α)
  | [] => [[]]
  | [x] => [[x]]
  | x :: y :: rest =>
    if x = sep ∧ y = sep then [] :: splitPair sep rest else (splitPair sep (y :: rest)).modifyHead (x :: ·)

variable {sep : α}

theorem splitPair_ne_nil (sep : α) (xs : List α) : splitPair sep xs ≠ [] := by
  induction xs using splitPair.induct sep with
  | case1 => simp [splitPair]
  | case2 x => simp [splitPair]
  | case3 x y rest pair ih => simp [splitPair, pair]
  | case4 x y rest other ih =>
    rw [splitPair, if_neg other]
    obtain ⟨first, later, pieces⟩ := exists_cons_of_ne_nil ih
    simp [pieces]

theorem intercalate_splitPair (xs : List α) : [sep, sep].intercalate (splitPair sep xs) = xs := by
  induction xs using splitPair.induct sep with
  | case1 => rfl
  | case2 x => simp [splitPair]
  | case3 x y rest pair ih =>
    obtain ⟨rfl, rfl⟩ := pair
    rw [splitPair, if_pos ⟨rfl, rfl⟩, intercalate_cons_of_ne_nil (splitPair_ne_nil _ rest), ih]
    rfl
  | case4 x y rest other ih =>
    rw [splitPair, if_neg other]
    obtain ⟨first, later, pieces⟩ := exists_cons_of_ne_nil (splitPair_ne_nil sep (y :: rest))
    rw [pieces] at ih ⊢
    cases later with
    | nil =>
      rw [intercalate_singleton] at ih
      simp [ih]
    | cons second later =>
      rw [intercalate_cons_of_ne_nil (cons_ne_nil _ _)] at ih
      rw [modifyHead_cons, intercalate_cons_of_ne_nil (cons_ne_nil _ _), ← ih]
      rfl

theorem splitPair_append {front : List α} (free : sep ∉ front) (xs : List α) :
    splitPair sep (front ++ xs) = (splitPair sep xs).modifyHead (front ++ ·) := by
  induction front with
  | nil =>
    obtain ⟨first, later, pieces⟩ := exists_cons_of_ne_nil (splitPair_ne_nil sep xs)
    simp [pieces]
  | cons x front ih =>
    have other : x ≠ sep := by
      rintro rfl
      exact free (by simp)
    have inner := ih fun listed => free (mem_cons_of_mem _ listed)
    obtain ⟨first, later, pieces⟩ := exists_cons_of_ne_nil (splitPair_ne_nil sep xs)
    rw [pieces, modifyHead_cons] at inner ⊢
    rw [cons_append]
    cases shape : front ++ xs with
    | nil =>
      rw [shape, splitPair] at inner
      obtain ⟨none, rfl⟩ := List.cons.inj inner
      rw [splitPair, cons_append, ← none]
    | cons y rest =>
      rw [shape] at inner
      rw [splitPair, if_neg fun both => other both.1, inner]
      rfl

theorem splitPair_free {xs : List α} (free : sep ∉ xs) : splitPair sep xs = [xs] := by
  have whole := splitPair_append free []
  rw [append_nil] at whole
  rw [whole, splitPair]
  simp

theorem splitPair_intercalate {pieces : List (List α)} (some_ : pieces ≠ []) (free : ∀ piece ∈ pieces, sep ∉ piece) :
    splitPair sep ([sep, sep].intercalate pieces) = pieces := by
  induction pieces with
  | nil => exact absurd rfl some_
  | cons first later ih =>
    cases later with
    | nil => rw [intercalate_singleton, splitPair_free (free first (by simp))]
    | cons second later =>
      have inner := ih (cons_ne_nil _ _) fun piece listed => free piece (mem_cons_of_mem _ listed)
      rw [intercalate_cons_of_ne_nil (cons_ne_nil _ _), append_assoc,
        splitPair_append (free first (by simp))]
      rw [cons_append, cons_append, nil_append, splitPair, if_pos ⟨rfl, rfl⟩, inner]
      simp

theorem splitPair_append_gap {gap : List α} (blanks : AllBlank blank gap) (solid : blank sep = false) (xs : List α) :
    List.Forall₂ (fun a b => ∃ tail, AllBlank blank tail ∧ a = b ++ tail) (splitPair sep (xs ++ gap)) (splitPair sep xs) := by
  have free : sep ∉ gap := by
    intro listed
    cases solid.symm.trans (blanks sep listed)
  have same : ∀ pieces : List (List α),
      List.Forall₂ (fun a b => ∃ tail, AllBlank blank tail ∧ a = b ++ tail) pieces pieces := fun pieces =>
    forall₂_same.mpr fun piece _ => ⟨[], by rintro _ ⟨⟩, (append_nil piece).symm⟩
  induction xs using splitPair.induct sep with
  | case1 =>
    rw [nil_append, splitPair_free free, splitPair]
    exact .cons ⟨gap, blanks, rfl⟩ .nil
  | case2 x =>
    cases gap with
    | nil => exact same _
    | cons y gap =>
      have other : y ≠ sep := by
        rintro rfl
        exact free (by simp)
      have left : splitPair sep (x :: y :: gap) = [x :: y :: gap] := by
        rw [splitPair, if_neg (by simp [other]), splitPair_free free]
        rfl
      rw [singleton_append, left, splitPair]
      exact .cons ⟨y :: gap, blanks, rfl⟩ .nil
  | case3 x y rest pair ih =>
    rw [cons_append, cons_append, splitPair, if_pos pair, splitPair, if_pos pair]
    exact .cons ⟨[], by rintro _ ⟨⟩, rfl⟩ ih
  | case4 x y rest other ih =>
    rw [cons_append, cons_append, splitPair, if_neg other, splitPair, if_neg other]
    rw [cons_append] at ih
    obtain ⟨first, later, pieces⟩ := exists_cons_of_ne_nil (splitPair_ne_nil sep (y :: (rest ++ gap)))
    obtain ⟨first', later', pieces'⟩ := exists_cons_of_ne_nil (splitPair_ne_nil sep (y :: rest))
    rw [pieces, pieces'] at ih ⊢
    cases ih with
    | cons head tail =>
      obtain ⟨end_, blank_, shape⟩ := head
      exact .cons ⟨end_, blank_, by simp [shape]⟩ tail

theorem words_splitPair_trim (solid : blank sep = false) (xs : List α) :
    (splitPair sep (trim blank xs)).map (words blank) = (splitPair sep xs).map (words blank) := by
  obtain ⟨front, back, blanks, blanks', shape⟩ := trim_shape blank xs
  have free : sep ∉ front := by
    intro listed
    cases solid.symm.trans (blanks sep listed)
  have ended := map_words_of_tails (splitPair_append_gap blanks' solid (trim blank xs))
  conv => rhs; rw [shape]
  rw [append_assoc, splitPair_append free, ← ended]
  obtain ⟨first, later, pieces⟩ := exists_cons_of_ne_nil (splitPair_ne_nil sep (trim blank xs ++ back))
  simp [pieces, words_gap_append blanks]

end Words
