import TypeScriptRs.Lib.HashMap

/-! A table with an index from what the values stand for to spellings of the keys. -/
namespace ReverseIndex

variable {K N R V : Type} [DecidableEq K] [DecidableEq N] [DecidableEq R] (keyOf : N → K) (target : V → Option R)

def listed (index : HashMap R (Finset N)) (r : R) : Finset N := (index.lookup r).getD ∅

def addName (index : HashMap R (Finset N)) (r : R) (name : N) : HashMap R (Finset N) := index.insert r (insert name (listed index r))

def Indexed (table : HashMap K V) (index : HashMap R (Finset N)) : Prop :=
  ∀ k r, (∃ name ∈ listed index r, keyOf name = k) ↔ (table.lookup k).bind target = some r

/-- A new key is that of its name, and an old one keeps what its value stands for. -/
def Fits (table : HashMap K V) (name : N) (key : K) (value : V) : Prop :=
  match table.lookup key with
  | none => (target value).isSome → keyOf name = key
  | some old => target old = target value

/-- The index after a name was set, which is added for a new key only. -/
def indexAfter (table : HashMap K V) (index : HashMap R (Finset N)) (name : N) (key : K) (value : V) : HashMap R (Finset N) :=
  match target value with
  | some r => if (table.lookup key).isSome then index else addName index r name
  | none => index

variable {keyOf target} {table : HashMap K V} {index : HashMap R (Finset N)} {name : N} {key : K} {value : V}

theorem mem_listed_addName {r r' : R} {n : N} : n ∈ listed (addName index r name) r' ↔ (r' = r ∧ n = name) ∨ n ∈ listed index r' := by
  unfold listed addName
  rw [HashMap.lookup_insert_if]
  by_cases same : r' = r
  · subst same
    simp [listed]
  · simp [same]

omit [DecidableEq R] in
theorem bind_lookup_insert (k : K) : ((table.insert key value).lookup k).bind target =
    if k = key then target value else (table.lookup k).bind target := by
  rw [HashMap.lookup_insert_if]
  split <;> rfl

omit [DecidableEq N] in
theorem indexed_empty : Indexed keyOf target (∅ : HashMap K V) (∅ : HashMap R (Finset N)) := by
  intro k r
  simp [listed]

omit [DecidableEq N] in
theorem indexed_old_iff (indexed : Indexed keyOf target table index) {old : V} (found : table.lookup key = some old) :
    Indexed keyOf target (table.insert key value) index ↔ target old = target value := by
  have here : (table.lookup key).bind target = target old := by rw [found, Option.bind_some]
  constructor
  · intro still
    refine Option.ext fun r => ?_
    have after := still key r
    rw [bind_lookup_insert, if_pos rfl] at after
    rw [← here]
    exact (indexed key r).symm.trans after
  intro same k r
  rw [indexed k r, bind_lookup_insert]
  split
  · rename_i this
    rw [this, here, same]
  · rfl

theorem indexed_new_iff (indexed : Indexed keyOf target table index) (absent : table.lookup key = none) {r : R}
    (stands : target value = some r) :
    Indexed keyOf target (table.insert key value) (addName index r name) ↔ keyOf name = key := by
  have before (r' : R) : ¬ ∃ n ∈ listed index r', keyOf n = key := by
    rw [indexed key r', absent]
    simp
  have split_ (k : K) (r' : R) : (∃ n ∈ listed (addName index r name) r', keyOf n = k) ↔
      (r' = r ∧ keyOf name = k) ∨ ∃ n ∈ listed index r', keyOf n = k := by
    simp only [mem_listed_addName]
    constructor
    · rintro ⟨n, ⟨rfl, rfl⟩ | old, same⟩
      · exact .inl ⟨rfl, same⟩
      · exact .inr ⟨n, old, same⟩
    · rintro (⟨rfl, same⟩ | ⟨n, old, same⟩)
      · exact ⟨name, .inl ⟨rfl, rfl⟩, same⟩
      · exact ⟨n, .inr old, same⟩
  constructor
  · intro still
    have after := (still key r).mpr (by rw [bind_lookup_insert, if_pos rfl, stands])
    exact ((split_ key r).mp after).elim And.right fun old => absurd old (before r)
  intro named k r'
  rw [split_, bind_lookup_insert]
  split
  · rename_i this
    rw [this, stands, Option.some.injEq, or_iff_left (before r'), and_iff_left named]
    exact eq_comm
  · rename_i other
    rw [← indexed k r', or_iff_right]
    exact fun both => other (both.2.symm.trans named)

theorem indexed_insert_iff (indexed : Indexed keyOf target table index) :
    Indexed keyOf target (table.insert key value) (indexAfter target table index name key value) ↔
      Fits keyOf target table name key value := by
  unfold indexAfter Fits
  cases found : table.lookup key with
  | some old =>
    have kept : (match target value with | some r => if (some old).isSome then index else addName index r name | none => index) = index := by
      cases target value <;> rfl
    rw [kept]
    exact indexed_old_iff indexed found
  | none =>
    cases stands : target value with
    | some r => simpa using indexed_new_iff indexed found stands
    | none =>
      refine iff_of_true (fun k r => ?_) fun some_ => by cases some_
      rw [indexed k r, bind_lookup_insert]
      split
      · rename_i this
        rw [this, found, stands]
        rfl
      · rfl

end ReverseIndex
