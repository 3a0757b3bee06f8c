import Mathlib.Data.List.Induction

/-! Lists of keys and values as tables: the first entry of a key counts. -/
namespace Entries
open List

variable {K V W : Type} [BEq K] [LawfulBEq K] [DecidableEq K] {entries : List (K × V)} {key k : K} {v : V}

def insert (entries : List (K × V)) (key : K) (value : V) : List (K × V) :=
  if (entries.lookup key).isSome then entries.map fun e => if e.1 = key then (key, value) else e
  else entries ++ [(key, value)]

def remove (entries : List (K × V)) (key : K) : List (K × V) := entries.filter (·.1 ≠ key)

omit [LawfulBEq K] [DecidableEq K] in
def distinct (entries : List (K × V)) : List (K × V) :=
  entries.foldl (fun kept e => if (kept.lookup e.1).isSome then kept else kept ++ [e]) []

def Coherent (entries : List (K × V)) : Prop := ∀ e ∈ entries, entries.lookup e.1 = some e.2

theorem lookup_cons_if (e : K × V) (entries : List (K × V)) (k : K) :
    (e :: entries).lookup k = if k = e.1 then some e.2 else entries.lookup k := by
  rw [lookup_cons]
  split
  · rename_i same
    rw [if_pos (beq_iff_eq.mp same)]
  · rename_i other
    rw [if_neg fun same => by simp [same] at other]

theorem lookup_replace (entries : List (K × V)) (key : K) (value : V) (k : K) :
    (entries.map fun e => if e.1 = key then (key, value) else e).lookup k =
      (entries.lookup k).map fun v => if k = key then value else v := by
  induction entries with
  | nil => rfl
  | cons e rest ih =>
    rw [map_cons, lookup_cons_if, lookup_cons_if, ih]
    by_cases here : k = e.1
    · subst here
      by_cases same : e.1 = key
      · simp [same]
      · simp [same]
    have other : k ≠ (if e.1 = key then (key, value) else e).1 := fun equal => by
      split at equal
      · rename_i same
        exact here (equal.trans same.symm)
      · exact here equal
    rw [if_neg other, if_neg here]

theorem lookup_insert (entries : List (K × V)) (key : K) (value : V) (k : K) :
    (insert entries key value).lookup k = if k = key then some value else entries.lookup k := by
  unfold insert
  split
  · rename_i known
    rw [lookup_replace]
    by_cases same : k = key
    · subst same
      obtain ⟨v, found⟩ := Option.isSome_iff_exists.mp known
      simp [found]
    · simp [same]
  · rename_i unknown
    rw [lookup_append, lookup_cons_if]
    by_cases same : k = key
    · subst same
      simp [Option.not_isSome_iff_eq_none.mp unknown]
    · simp [same]

omit [DecidableEq K] in
theorem lookup_eq_none_of_keys (fresh : key ∉ entries.map (·.1)) : entries.lookup key = none := by
  rw [lookup_eq_none_iff]
  intro e member
  rw [bne_iff_ne]
  rintro rfl
  exact fresh (mem_map_of_mem member)

theorem insert_fresh (fresh : key ∉ entries.map (·.1)) (value : V) : insert entries key value = entries ++ [(key, value)] := by
  rw [insert, lookup_eq_none_of_keys fresh]
  rfl

omit [LawfulBEq K] in
theorem keys_insert (entries : List (K × V)) (key : K) (value : V) : (insert entries key value).map (·.1) =
    if (entries.lookup key).isSome then entries.map (·.1) else entries.map (·.1) ++ [key] := by
  unfold insert
  split
  · rw [map_map]
    apply map_congr_left
    intro e member
    change (if e.1 = key then (key, value) else e).1 = e.1
    split
    · rename_i same
      exact same.symm
    · rfl
  · simp

theorem nodup_insert (distinct : (entries.map (·.1)).Nodup) (key : K) (value : V) :
    ((insert entries key value).map (·.1)).Nodup := by
  rw [keys_insert]
  split
  · exact distinct
  rename_i fresh
  refine nodup_append.mpr ⟨distinct, pairwise_singleton _ key, ?_⟩
  rintro k member k' single same
  obtain rfl := mem_singleton.mp single
  obtain ⟨e, there, rfl⟩ := mem_map.mp member
  have absent := lookup_eq_none_iff.mp (Option.not_isSome_iff_eq_none.mp fresh) e there
  simp [same] at absent

omit [LawfulBEq K] in
theorem mem_insert {value : V} {e : K × V} (member : e ∈ insert entries key value) : e = (key, value) ∨ e ∈ entries := by
  unfold insert at member
  split at member
  · obtain ⟨e', there, rfl⟩ := mem_map.mp member
    split
    · exact .inl rfl
    · exact .inr there
  · rcases mem_append.mp member with old | new
    · exact .inr old
    · exact .inl (mem_singleton.mp new)

theorem foldl_insert_distinct (entries : List (K × V)) : ∀ kept : List (K × V), ((kept ++ entries).map (·.1)).Nodup →
    entries.foldl (fun kept e => insert kept e.1 e.2) kept = kept ++ entries := by
  induction entries with
  | nil => intro kept _; simp
  | cons e entries ih =>
    intro kept distinct
    have fresh : e.1 ∉ kept.map (·.1) := by
      rw [map_append, map_cons, nodup_append] at distinct
      intro known
      exact distinct.2.2 e.1 known e.1 mem_cons_self rfl
    rw [foldl_cons, insert_fresh fresh, ih]
    · rw [append_assoc, singleton_append]
    · rw [append_assoc, singleton_append]
      exact distinct

omit [LawfulBEq K] in
theorem foldl_insert_of_length (entries : List (K × V)) :
    (entries.foldl (fun kept e => insert kept e.1 e.2) []).length ≤ entries.length ∧
    ((entries.foldl (fun kept e => insert kept e.1 e.2) []).length = entries.length →
      entries.foldl (fun kept e => insert kept e.1 e.2) [] = entries) := by
  induction entries using List.reverseRecOn with
  | nil => exact ⟨Nat.le_refl _, fun _ => rfl⟩
  | append_singleton entries e ih =>
    rw [foldl_append, foldl_cons, foldl_nil, length_append, length_singleton]
    generalize entries.foldl (fun kept e => insert kept e.1 e.2) [] = kept at ih ⊢
    unfold insert
    split
    · rw [length_map]
      exact ⟨by omega, fun same => by omega⟩
    · rw [length_append, length_singleton]
      exact ⟨by omega, fun same => by rw [ih.2 (by omega)]⟩

theorem lookup_remove (entries : List (K × V)) (key k : K) :
    (remove entries key).lookup k = if k = key then none else entries.lookup k := by
  unfold remove
  induction entries with
  | nil => simp
  | cons e rest ih =>
    rw [filter_cons, lookup_cons_if]
    by_cases gone : e.1 = key
    · rw [if_neg (by simpa using gone), ih]
      by_cases same : k = key
      · rw [if_pos same, if_pos same]
      · rw [if_neg same, if_neg same, if_neg fun equal => same (equal.trans gone)]
    · rw [if_pos (by simpa using gone), lookup_cons_if, ih]
      by_cases here : k = e.1
      · rw [if_pos here, if_pos here, if_neg fun equal => gone (here.symm.trans equal)]
      · rw [if_neg here, if_neg here]

omit [DecidableEq K] in
theorem distinct_coherent (entries : List (K × V)) : Coherent (distinct entries) := by
  unfold distinct
  have each (rest kept : List (K × V)) (coherent : Coherent kept) :
      Coherent (rest.foldl (fun kept e => if (kept.lookup e.1).isSome then kept else kept ++ [e]) kept) := by
    induction rest generalizing kept with
    | nil => exact coherent
    | cons e rest ih =>
      rw [foldl_cons]
      split
      · exact ih kept coherent
      rename_i new
      refine ih _ fun e' member => ?_
      rw [lookup_append]
      rcases mem_append.mp member with before | here
      · rw [coherent e' before, Option.some_or]
      · obtain rfl := mem_singleton.mp here
        rw [Option.not_isSome_iff_eq_none.mp new, Option.none_or, lookup_cons_self]
  exact each entries [] fun e none_ => absurd none_ not_mem_nil

omit [DecidableEq K] in
theorem lookup_distinct (entries : List (K × V)) (k : K) : (distinct entries).lookup k = entries.lookup k := by
  unfold distinct
  have each (rest kept : List (K × V)) :
      (rest.foldl (fun kept e => if (kept.lookup e.1).isSome then kept else kept ++ [e]) kept).lookup k =
        (kept.lookup k).or (rest.lookup k) := by
    induction rest generalizing kept with
    | nil => simp
    | cons e rest ih =>
      obtain ⟨k', v⟩ := e
      rw [foldl_cons, ih, lookup_cons]
      by_cases here : k = k'
      · subst here
        split
        · rename_i known
          obtain ⟨v, found⟩ := Option.isSome_iff_exists.mp known
          simp [found]
        · rename_i new
          simp [lookup_append, Option.not_isSome_iff_eq_none.mp new]
      · have other : (k == k') = false := beq_eq_false_iff_ne.mpr here
        split
        · simp [other]
        · simp [lookup_append, lookup_cons, other]
  rw [each, lookup_nil, Option.none_or]

omit [DecidableEq K] in
theorem distinct_of_nodup (nodup : (entries.map (·.1)).Nodup) : distinct entries = entries := by
  have each (rest kept : List (K × V)) (nodup : ((kept ++ rest).map (·.1)).Nodup) :
      rest.foldl (fun kept e => if (kept.lookup e.1).isSome then kept else kept ++ [e]) kept = kept ++ rest := by
    induction rest generalizing kept with
    | nil => exact (append_nil kept).symm
    | cons e rest ih =>
      have fresh : kept.lookup e.1 = none := by
        rw [lookup_eq_none_iff]
        intro e' member
        rw [map_append, nodup_append] at nodup
        have other := nodup.2.2 e'.1 (mem_map_of_mem member) e.1 (by simp)
        simpa using Ne.symm other
      rw [foldl_cons, fresh]
      simpa using ih (kept ++ [e]) (by simpa using nodup)
  exact each entries [] nodup

omit [DecidableEq K] in
theorem mem_of_lookup (found : entries.lookup k = some v) : (k, v) ∈ entries := by
  obtain ⟨l₁, l₂, rfl, -⟩ := lookup_eq_some_iff.mp found
  exact mem_append_right l₁ mem_cons_self

theorem lookup_filterMap_of (only : ∀ e ∈ entries, e.1 = k → e.2 = v) (f : K × V → Option W) :
    (entries.filterMap fun e => (f e).map (e.1, ·)).lookup k = (entries.lookup k).bind fun _ => f (k, v) := by
  induction entries with
  | nil => rfl
  | cons e rest ih =>
    have ih := ih fun e' member => only e' (mem_cons_of_mem e member)
    rw [filterMap_cons, lookup_cons_if]
    by_cases here : k = e.1
    · obtain ⟨k', v'⟩ := e
      obtain rfl : k = k' := here
      obtain rfl : v' = v := only (k, v') mem_cons_self rfl
      rw [if_pos rfl]
      cases image : f (k, v') with
      | none =>
        rw [image] at ih
        simp [ih]
      | some w => simp
    · rw [if_neg here]
      cases image : f e with
      | none => exact ih
      | some w =>
        change ((e.1, w) :: _).lookup k = _
        rw [lookup_cons_if, if_neg here, ih]

omit [LawfulBEq K] [DecidableEq K] in
theorem lookup_filterMap_none (absent : entries.lookup k = none) (f : K × V → Option W) :
    (entries.filterMap fun e => (f e).map (e.1, ·)).lookup k = none := by
  rw [lookup_eq_none_iff]
  intro e member
  obtain ⟨e', there, same⟩ := mem_filterMap.mp member
  obtain ⟨w, -, rfl⟩ := Option.map_eq_some_iff.mp same
  exact lookup_eq_none_iff.mp absent e' there

theorem lookup_filterMap (coherent : Coherent entries) (f : K × V → Option W) (k : K) :
    (entries.filterMap fun e => (f e).map (e.1, ·)).lookup k = (entries.lookup k).bind fun v => f (k, v) := by
  cases found : entries.lookup k with
  | none => exact lookup_filterMap_none found f
  | some v =>
    have only (e : K × V) (member : e ∈ entries) (same : e.1 = k) : e.2 = v := by
      have here := coherent e member
      rw [same, found] at here
      exact (Option.some.inj here).symm
    rw [lookup_filterMap_of only, found, Option.bind_some, Option.bind_some]

theorem Coherent.filterMap (coherent : Coherent entries) (f : K × V → Option W) :
    Coherent (entries.filterMap fun e => (f e).map (e.1, ·)) := by
  intro e member
  obtain ⟨e', there, same⟩ := mem_filterMap.mp member
  obtain ⟨w, image, rfl⟩ := Option.map_eq_some_iff.mp same
  rw [lookup_filterMap coherent, coherent e' there]
  exact image

end Entries
