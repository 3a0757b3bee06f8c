import TypeScriptRs.Lib.Utf8

/-! Searching texts for other texts. -/
namespace Utf8
open List

variable {needle text before rest : Text} {c : Char}

/-- The text before the first occurrence of another one, and the text from there on. -/
def cutAt (needle : Text) : Text → Option (Text × Text)
  | [] => if needle = [] then some ([], []) else none
  | c :: text =>
    if needle.isPrefixOf (c :: text) then some ([], c :: text)
    else (cutAt needle text).map fun (before, rest) => (c :: before, rest)

/-- The text before the last occurrence of another one, and the text from there on. -/
def cutAtLast (needle : Text) : Text → Option (Text × Text)
  | [] => if needle = [] then some ([], []) else none
  | c :: text =>
    match cutAtLast needle text with
    | some (before, rest) => some (c :: before, rest)
    | none => if needle.isPrefixOf (c :: text) then some ([], c :: text) else none

def contains (needle text : Text) : Bool := (cutAt needle text).isSome

def replaceFirst (c : Char) (by_ : Text) : Text → Text
  | [] => []
  | d :: text => if d = c then by_ ++ text else d :: replaceFirst c by_ text

def replaceAll (c : Char) (by_ : Text) (text : Text) : Text := text.flatMap fun d => if d = c then by_ else [d]

theorem cutAt_some (found : cutAt needle text = some (before, rest)) : text = before ++ rest ∧ needle <+: rest := by
  induction text generalizing before with
  | nil =>
    unfold cutAt at found
    split at found
    · rename_i empty
      cases found
      exact ⟨rfl, empty ▸ prefix_rfl⟩
    · cases found
  | cons c text ih =>
    unfold cutAt at found
    split at found
    · rename_i begins
      cases found
      exact ⟨rfl, List.isPrefixOf_iff_prefix.mp begins⟩
    · obtain ⟨⟨before', rest'⟩, later, same⟩ := Option.map_eq_some_iff.mp found
      cases same
      obtain ⟨shape, begins⟩ := ih later
      exact ⟨congrArg (c :: ·) shape, begins⟩

theorem cutAtLast_eq_none : cutAtLast needle text = none ↔ ∀ before rest, text = before ++ rest → ¬ needle <+: rest := by
  induction text with
  | nil =>
    unfold cutAtLast
    constructor
    · intro none before rest shape begins
      obtain ⟨rfl, rfl⟩ := append_eq_nil_iff.mp shape.symm
      rw [if_pos (prefix_nil.mp begins)] at none
      cases none
    · intro nowhere
      exact if_neg fun empty : needle = [] => nowhere [] [] rfl (empty ▸ prefix_rfl)
  | cons c text ih =>
    unfold cutAtLast
    cases later : cutAtLast needle text with
    | some cut =>
      refine iff_of_false (by simp) fun nowhere => ?_
      rw [later] at ih
      refine Option.some_ne_none cut (ih.mpr fun before rest shape => nowhere (c :: before) rest ?_)
      rw [shape]
      rfl
    | none =>
      constructor
      · intro none before rest shape begins
        cases before with
        | nil =>
          cases shape
          rw [if_pos (List.isPrefixOf_iff_prefix.mpr begins)] at none
          cases none
        | cons d before =>
          cases shape
          exact (ih.mp later) before rest rfl begins
      · intro nowhere
        exact if_neg fun begins => nowhere [] _ rfl (List.isPrefixOf_iff_prefix.mp begins)

theorem cutAtLast_last (found : cutAtLast needle text = some (before, rest)) :
    text = before ++ rest ∧ needle <+: rest ∧ ∀ b r, text = b ++ r → needle <+: r → b.length ≤ before.length := by
  induction text generalizing before with
  | nil =>
    unfold cutAtLast at found
    split at found
    · rename_i empty
      cases found
      refine ⟨rfl, empty ▸ prefix_rfl, fun b r shape _ => ?_⟩
      exact Nat.le_of_eq (congrArg List.length (append_eq_nil_iff.mp shape.symm).1)
    · cases found
  | cons c text ih =>
    unfold cutAtLast at found
    split at found
    · rename_i before' rest' later
      cases found
      obtain ⟨shape, begins, last⟩ := ih later
      refine ⟨by rw [shape]; rfl, begins, fun b r shape' begins' => ?_⟩
      cases b with
      | nil => exact Nat.zero_le _
      | cons d b => exact Nat.succ_le_succ (last b r (List.cons.inj shape').2 begins')
    rename_i nowhere
    split at found
    · rename_i begins
      cases found
      refine ⟨rfl, List.isPrefixOf_iff_prefix.mp begins, fun b r shape begins' => ?_⟩
      cases b with
      | nil => exact Nat.le_refl _
      | cons d b => exact absurd begins' (cutAtLast_eq_none.mp nowhere b r (List.cons.inj shape).2)
    · cases found

theorem cutAtLast_of_last (shape : text = before ++ rest) (begins : needle <+: rest)
    (last : ∀ b r, text = b ++ r → needle <+: r → b.length ≤ before.length) : cutAtLast needle text = some (before, rest) := by
  cases found : cutAtLast needle text with
  | none => exact absurd begins (cutAtLast_eq_none.mp found before rest shape)
  | some cut =>
    obtain ⟨before', rest'⟩ := cut
    obtain ⟨shape', begins', last'⟩ := cutAtLast_last found
    have length : before'.length = before.length := Nat.le_antisymm (last _ _ shape' begins') (last' _ _ shape begins)
    obtain ⟨rfl, rfl⟩ := append_inj (shape'.symm.trans shape) length
    rfl

theorem replaceAll_append (c : Char) (by_ front back : Text) :
    replaceAll c by_ (front ++ back) = replaceAll c by_ front ++ replaceAll c by_ back := flatMap_append

theorem replaceAll_free (free : c ∉ text) (by_ : Text) : replaceAll c by_ text = text := by
  induction text with
  | nil => rfl
  | cons d text ih =>
    have other : c ≠ d := fun same => free (same ▸ mem_cons_self)
    have later : c ∉ text := fun listed => free (mem_cons_of_mem d listed)
    show (if d = c then by_ else [d]) ++ replaceAll c by_ text = d :: text
    rw [if_neg (Ne.symm other), ih later]
    rfl

theorem replaceAll_self (c : Char) (text : Text) : replaceAll c [c] text = text := by
  induction text with
  | nil => rfl
  | cons d text ih =>
    show (if d = c then [c] else [d]) ++ replaceAll c [c] text = d :: text
    rw [ih]
    split
    · rename_i same
      rw [same]
      rfl
    · rfl

theorem replaceAll_length (c : Char) (by_ text : Text) :
    (replaceAll c by_ text).length + text.count c = text.length + text.count c * by_.length := by
  induction text with
  | nil => simp [replaceAll]
  | cons d text ih =>
    have step : replaceAll c by_ (d :: text) = (if d = c then by_ else [d]) ++ replaceAll c by_ text := rfl
    rw [step, length_append, length_cons, count_cons]
    by_cases same : d = c
    · subst same
      rw [if_pos rfl, if_pos (beq_self_eq_true d), Nat.add_mul, Nat.one_mul]
      omega
    · rw [if_neg same, if_neg (by simpa using same), length_singleton, Nat.add_zero]
      omega

theorem replaceAll_eq_self_iff {by_ : Text} : replaceAll c by_ text = text ↔ (c ∈ text → by_ = [c]) := by
  constructor
  · intro same listed
    have sizes := replaceAll_length c by_ text
    have some_ : 0 < text.count c := count_pos_iff.mpr listed
    rw [same] at sizes
    have one : by_.length = 1 := by
      have product : text.count c * by_.length = text.count c * 1 := by omega
      exact Nat.eq_of_mul_eq_mul_left some_ product
    obtain ⟨b, rfl⟩ := length_eq_one_iff.mp one
    obtain ⟨front, back, rfl, free⟩ := eq_append_cons_of_mem listed
    rw [replaceAll_append, replaceAll_free free] at same
    have rest := append_cancel_left same
    have step : replaceAll c [b] (c :: back) = (if c = c then [b] else [c]) ++ replaceAll c [b] back := rfl
    rw [step, if_pos rfl] at rest
    rw [(List.cons.inj rest).1]
  · intro only
    by_cases listed : c ∈ text
    · rw [only listed]
      exact replaceAll_self c text
    · exact replaceAll_free listed by_

end Utf8
