import TypeScriptRs.Lib.Machine
import TypeScriptRs.Lib.Utf8

/-! The index of names that can be imported, by the words in them. -/
namespace TypeScriptRs.Autoimport
open Machine Utf8 List

/-- The Unicode tables of characters and texts, of which the first character of a mapping is used. -/
structure Letters where
  toUppercase : Char → Char
  toLowercase : Char → Char
  textToLowercase : Text → Text
  isUppercase : Char → Bool
  isLowercase : Char → Bool

section
variable (u : Letters)

/-- The words after a character, each as the rest of the name from it on. -/
def wordsAfter : Char → Text → List Text
  | _, [] => []
  | previous, c :: rest =>
    if c = '_' then
      if rest ≠ [] ∧ rest.head? ≠ some '_' then rest :: wordsAfter c rest else wordsAfter c rest
    else
      let next := if c.utf8Size = 1 then rest.head? else none
      if u.isUppercase c ∧ (u.isLowercase previous ∨ next.any u.isLowercase) then (c :: rest) :: wordsAfter c rest
      else wordsAfter c rest

def wordIndices : Text → List Text
  | [] => []
  | c :: rest => (c :: rest) :: wordsAfter u c rest

/-- Whether the characters of the text pass those of the pattern in order. -/
def passes : Text → Text → Bool
  | [], pattern => pattern.isEmpty
  | c :: text, pattern => passes text (if pattern.head? = some c then pattern.tail else pattern)

def containsCharsInOrder (text pattern : Text) : Bool := passes (u.textToLowercase text) (u.textToLowercase pattern)
end

/-- The entries, and their places by letter. -/
structure Index (T : Type) where
  entries : List T
  index : Char → List Nat
  inside : ∀ key, ∀ i ∈ index key, i < entries.length

variable {T : Type} (u : Letters) (name : T → Text)

def Index.default : Index T := ⟨[], fun _ => [], by simp⟩

/-- The entries at some places that are asked for. -/
def Index.select (index : Index T) (keep : T → Bool) (places : List Nat) : List T :=
  places.filterMap fun i => index.entries[i]?.filter keep

def Index.find (index : Index T) (wanted : Text) (caseSensitive : Bool) : List T :=
  if index.entries.isEmpty then []
  else
    match wanted with
    | [] => []
    | first :: _ =>
      index.select (fun entry => caseSensitive ∧ name entry = wanted ∨
        ¬ caseSensitive ∧ u.textToLowercase (name entry) = u.textToLowercase wanted) (index.index (u.toUppercase first))

def Index.searchWordPrefix (index : Index T) (prefix_ : Text) : List T :=
  if index.entries.isEmpty then []
  else if prefix_ = [] then index.entries
  else
    match u.textToLowercase prefix_ with
    | [] => []
    | first :: rest =>
      let upper := u.toUppercase first
      let lower := u.toLowercase first
      let nameStarts := index.index upper
      let wordStarts := if upper ≠ lower then index.index lower else []
      index.select (fun entry => containsCharsInOrder u (name entry) (first :: rest)) (nameStarts ++ wordStarts)

/-- The places with one more under a key. -/
def pushAt (index : Char → List Nat) (key : Char) (i : Nat) : Char → List Nat :=
  Function.update index key (index key ++ [i])

/-- The words after the first one go under their letters in lower case. -/
def indexLater (i : Nat) : List Text → List Char → (Char → List Nat) → (Char → List Nat)
  | [], _, index => index
  | [] :: words, seen, index => indexLater i words seen index
  | (first :: _) :: words, seen, index =>
    let key := u.toLowercase first
    if key ∈ seen then indexLater i words seen index else indexLater i words (key :: seen) (pushAt index key i)

def indexWords (i : Nat) (index : Char → List Nat) : List Text → (Char → List Nat)
  | [] => index
  | [] :: words => indexLater u i words [] index
  | (first :: _) :: words => indexLater u i words [u.toUppercase first] (pushAt index (u.toUppercase first) i)

/-- The letters under which the words of a name are found. -/
def wordKeys : List Text → List Char
  | [] => []
  | word :: words => (word.head?.map u.toUppercase).toList ++ words.filterMap fun word => word.head?.map u.toLowercase

variable {u} {i e : Nat} {key : Char}

theorem mem_pushAt {index : Char → List Nat} {key' : Char} :
    e ∈ pushAt index key' i key ↔ e ∈ index key ∨ e = i ∧ key = key' := by
  unfold pushAt
  by_cases same : key = key'
  · subst same
    simp
  · simp [same]

theorem mem_indexLater (words : List Text) (seen : List Char) (index : Char → List Nat)
    (listed : ∀ key ∈ seen, i ∈ index key) : e ∈ indexLater u i words seen index key ↔
      e ∈ index key ∨ e = i ∧ key ∈ words.filterMap fun word => word.head?.map u.toLowercase := by
  fun_induction indexLater u i words seen index with
  | case1 => simp
  | case2 words seen index ih => simpa using ih listed
  | case3 first rest words seen index key' old ih =>
    simp only [filterMap_cons, List.head?_cons, Option.map_some, mem_cons]
    have known : key = key' → e = i → e ∈ index key := by
      rintro rfl rfl
      exact listed _ old
    tauto
  | case4 first rest words seen index key' new ih =>
    have listed' : ∀ key ∈ key' :: seen, i ∈ pushAt index key' i key := fun key member =>
      mem_pushAt.mpr ((mem_cons.mp member).symm.imp (listed key) fun same => ⟨rfl, same⟩)
    rw [ih listed', mem_pushAt]
    simp only [filterMap_cons, List.head?_cons, Option.map_some, mem_cons]
    tauto

theorem mem_indexWords {index : Char → List Nat} (words : List Text) :
    e ∈ indexWords u i index words key ↔ e ∈ index key ∨ e = i ∧ key ∈ wordKeys u words := by
  fun_cases indexWords u i index words with
  | case1 => simp [wordKeys]
  | case2 words => simpa [wordKeys] using mem_indexLater words [] index (by simp)
  | case3 first rest words =>
    rw [mem_indexLater, mem_pushAt]
    · simp only [wordKeys, List.head?_cons, Option.map_some, Option.toList_some, mem_append, mem_singleton]
      tauto
    · simp [mem_pushAt]

def Index.insertAsWords (u : Letters) (name : T → Text) (index : Index T) (value : T) : Outcome (Index T) :=
  if name value = [] then .panic "Cannot index entry with empty name"
  else
    .ok {
      entries := index.entries ++ [value]
      index := indexWords u index.entries.length index.index (wordIndices u (name value))
      inside := by
        intro key i listed
        rw [length_append]
        rcases (mem_indexWords _).mp listed with old | ⟨rfl, -⟩
        · exact Nat.lt_add_right 1 (index.inside key i old)
        · exact Nat.lt_succ_self _ }

/-- The new places of the entries that are kept, from the next old and the next new place on. -/
def oldToNew (filter : T → Bool) : List T → Nat → Nat → List (Nat × Nat)
  | [], _, _ => []
  | entry :: entries, oldIndex, newIndex =>
    if filter entry then (oldIndex, newIndex) :: oldToNew filter entries (oldIndex + 1) (newIndex + 1)
    else oldToNew filter entries (oldIndex + 1) newIndex

variable {name} {filter : T → Bool}

theorem lookup_oldToNew (entries : List T) (oldIndex : Nat) (earlier : List T) (i : Nat) :
    (List.lookup i (oldToNew filter entries oldIndex earlier.length)).bind
      (fun newIndex => (earlier ++ entries.filter filter)[newIndex]?) =
        if oldIndex ≤ i then entries[i - oldIndex]?.filter filter else none := by
  induction entries generalizing oldIndex earlier with
  | nil => simp [oldToNew]
  | cons entry entries ih =>
    have later (apart : i ≠ oldIndex) : (if oldIndex ≤ i then (entry :: entries)[i - oldIndex]?.filter filter else none) =
        if oldIndex + 1 ≤ i then entries[i - (oldIndex + 1)]?.filter filter else none := by
      by_cases past : oldIndex + 1 ≤ i
      · have next : i - oldIndex = i - (oldIndex + 1) + 1 := by omega
        rw [if_pos past, if_pos (by omega), next, List.getElem?_cons_succ]
      · rw [if_neg past, if_neg (by omega)]
    unfold oldToNew
    by_cases kept : filter entry = true
    · have ih' := ih (oldIndex + 1) (earlier ++ [entry])
      rw [if_pos kept, filter_cons_of_pos kept]
      by_cases here : i = oldIndex
      · subst here
        simp [Option.filter, kept]
      · rw [later here, ← ih', lookup_cons, beq_false_of_ne here, length_append, append_assoc]
        rfl
    · rw [if_neg kept, filter_cons_of_neg kept, ih]
      by_cases here : i = oldIndex
      · subst here
        simp [Option.filter, kept]
      · exact (later here).symm

theorem lt_of_oldToNew {entries : List T} {oldIndex newIndex i j : Nat}
    (here : List.lookup i (oldToNew filter entries oldIndex newIndex) = some j) :
    j < newIndex + (entries.filter filter).length := by
  fun_induction oldToNew filter entries oldIndex newIndex with
  | case1 => cases here
  | case2 entry entries oldIndex newIndex kept ih =>
    rw [filter_cons_of_pos kept, length_cons]
    rw [lookup_cons] at here
    split at here
    · cases here
      omega
    · have later := ih here
      omega
  | case3 entry entries oldIndex newIndex dropped ih =>
    rw [filter_cons_of_neg dropped]
    exact ih here

def Index.cloneFiltered (index : Index T) (filter : T → Bool) : Index T where
  entries := index.entries.filter filter
  index key := (index.index key).filterMap fun i => List.lookup i (oldToNew filter index.entries 0 0)
  inside key i listed := by
    obtain ⟨old, -, here⟩ := mem_filterMap.mp listed
    exact Nat.zero_add (index.entries.filter filter).length ▸ lt_of_oldToNew here

theorem select_cloneFiltered (index : Index T) (keep : T → Bool) (places : List Nat) : (index.cloneFiltered filter).select keep
        (places.filterMap fun i => List.lookup i (oldToNew filter index.entries 0 0)) =
      (index.select keep places).filter filter := by
  have renumbered (i : Nat) : (List.lookup i (oldToNew filter index.entries 0 0)).bind
      (fun newIndex => (index.entries.filter filter)[newIndex]?) = index.entries[i]?.filter filter := by
    simpa using lookup_oldToNew index.entries 0 [] i
  unfold Index.select
  rw [filterMap_filterMap, filter_filterMap]
  refine filterMap_congr fun i _ => ?_
  have swapped : Option.filter filter (Option.filter keep index.entries[i]?) =
      Option.filter keep (Option.filter filter index.entries[i]?) := by
    simp only [Option.filter_filter, Bool.and_comm]
  rw [swapped, ← renumbered i]
  cases List.lookup i (oldToNew filter index.entries 0 0) with
  | none => rfl
  | some newIndex => rfl

theorem ifEmpty_select (index : Index T) (keep : T → Bool) (places : List Nat) :
    (if index.entries.isEmpty then [] else index.select keep places) = index.select keep places := by
  split
  · rename_i empty
    simp [Index.select, isEmpty_iff.mp empty]
  · rfl

theorem ifEmpty_entries (index : Index T) : (if index.entries.isEmpty then [] else index.entries) = index.entries := by
  split
  · rename_i empty
    exact (isEmpty_iff.mp empty).symm
  · rfl

theorem find_cloneFiltered (index : Index T) (wanted : Text) (caseSensitive : Bool) :
    (index.cloneFiltered filter).find u name wanted caseSensitive =
      (index.find u name wanted caseSensitive).filter filter := by
  unfold Index.find
  cases wanted with
  | nil => simp
  | cons first rest =>
    simp only [ifEmpty_select]
    exact select_cloneFiltered index _ _

theorem searchWordPrefix_cloneFiltered (index : Index T) (prefix_ : Text) :
    (index.cloneFiltered filter).searchWordPrefix u name prefix_ =
      (index.searchWordPrefix u name prefix_).filter filter := by
  unfold Index.searchWordPrefix
  by_cases whole : prefix_ = []
  · simp only [if_pos whole, ifEmpty_entries]
    rfl
  simp only [if_neg whole]
  cases u.textToLowercase prefix_ with
  | nil => simp
  | cons first rest =>
    simp only [ifEmpty_select, ← select_cloneFiltered, filterMap_append]
    split
    · rfl
    · rfl

/-- The characters of the prefix are in the name in order, and one of the name's words has the first of them. -/
def Matches (u : Letters) (name prefix_ : Text) : Prop :=
  prefix_ = [] ∨ ∃ first rest, u.textToLowercase prefix_ = first :: rest ∧
    (∃ key ∈ wordKeys u (wordIndices u name), key = u.toUppercase first ∨ key = u.toLowercase first) ∧
    List.Sublist (u.textToLowercase (first :: rest)) (u.textToLowercase name)

theorem passes_iff (text pattern : Text) : passes text pattern = true ↔ List.Sublist pattern text := by
  induction text generalizing pattern with
  | nil => simp [passes]
  | cons c text ih =>
    unfold passes
    rw [ih]
    cases pattern with
    | nil => simp
    | cons first pattern =>
      by_cases same : first = c
      · simp [same]
      · simp [same, sublist_cons_iff]

/-- The places under a letter are those of the values that have it. -/
structure Holds (u : Letters) (name : T → Text) (values : List T) (index : Index T) : Prop where
  entries : index.entries = values
  keyed : ∀ key i, i ∈ index.index key ↔
    ∃ value, values[i]? = some value ∧ key ∈ wordKeys u (wordIndices u (name value))

theorem holds_default : Holds u name [] Index.default where
  entries := rfl
  keyed key i := by simp [Index.default]

theorem Holds.insert {values : List T} {index : Index T} (holds : Holds u name values index) {value : T}
    (named : name value ≠ []) :
    ∃ index', Index.insertAsWords u name index value = .ok index' ∧ Holds u name (values ++ [value]) index' := by
  refine ⟨_, if_neg named, congrArg (· ++ [value]) holds.entries, fun key i => ?_⟩
  rw [mem_indexWords, holds.keyed, holds.entries]
  rcases lt_trichotomy i values.length with inside | rfl | outside
  · simp [List.getElem?_append_left inside, inside.ne]
  · simp
  · have beyond : (values ++ [value])[i]? = none := by
      rw [List.getElem?_eq_none_iff, List.length_append]
      exact outside
    simp [List.getElem?_eq_none outside.le, beyond, outside.ne']

theorem Index.mem_select {index : Index T} {keep : T → Bool} {places : List Nat} {value : T} :
    value ∈ index.select keep places ↔ keep value = true ∧ ∃ i ∈ places, index.entries[i]? = some value := by
  simp only [Index.select, mem_filterMap, Option.filter_eq_some_iff]
  tauto

theorem Holds.mem_search {values : List T} {index : Index T} (holds : Holds u name values index) (prefix_ : Text)
    (value : T) : value ∈ index.searchWordPrefix u name prefix_ ↔ value ∈ values ∧ Matches u (name value) prefix_ := by
  unfold Index.searchWordPrefix Matches
  by_cases whole : prefix_ = []
  · simp only [if_pos whole, ifEmpty_entries]
    simp [holds.entries, whole]
  rw [if_neg whole, or_iff_right whole]
  cases u.textToLowercase prefix_ with
  | nil => simp
  | cons first rest =>
    have places (i : Nat) : i ∈ index.index (u.toUppercase first) ++
        (if u.toUppercase first ≠ u.toLowercase first then index.index (u.toLowercase first) else []) ↔
          i ∈ index.index (u.toUppercase first) ∨ i ∈ index.index (u.toLowercase first) := by
      rw [mem_append]
      split
      · rfl
      · rename_i same
        simp [not_not.mp same]
    simp only [ifEmpty_select, Index.mem_select, places]
    simp only [holds.keyed, holds.entries, containsCharsInOrder, passes_iff]
    constructor
    · rintro ⟨contains, i, ⟨other, here', key⟩ | ⟨other, here', key⟩, here⟩
      · cases here.symm.trans here'
        exact ⟨mem_of_getElem? here, first, rest, rfl, ⟨_, key, .inl rfl⟩, contains⟩
      · cases here.symm.trans here'
        exact ⟨mem_of_getElem? here, first, rest, rfl, ⟨_, key, .inr rfl⟩, contains⟩
    · rintro ⟨listed, first', rest', shape, ⟨key, keyed, same⟩, contains⟩
      cases shape
      obtain ⟨i, here⟩ := mem_iff_getElem?.mp listed
      refine ⟨contains, i, ?_, here⟩
      rcases same with rfl | rfl
      · exact .inl ⟨value, here, keyed⟩
      · exact .inr ⟨value, here, keyed⟩

/-- In an index of names that are not empty, a search finds the names that match; and it finds what is left of them
in the index of some of the entries. -/
theorem search_exact (u : Letters) (name : T → Text) (values : List T) (named : ∀ value ∈ values, name value ≠ []) :
    ∃ index, values.foldlM (Index.insertAsWords u name) Index.default = .ok index ∧
      (∀ prefix_ value, value ∈ index.searchWordPrefix u name prefix_ ↔ value ∈ values ∧ Matches u (name value) prefix_) ∧
      ∀ filter : T → Bool,
        (∀ wanted caseSensitive, (index.cloneFiltered filter).find u name wanted caseSensitive =
          (index.find u name wanted caseSensitive).filter filter) ∧
        ∀ prefix_, (index.cloneFiltered filter).searchWordPrefix u name prefix_ =
          (index.searchWordPrefix u name prefix_).filter filter := by
  obtain ⟨index, run, holds⟩ := foldlM_done (P := Holds u name) values
    (fun done index value listed holds => holds.insert (named value listed)) [] Index.default holds_default
  exact ⟨index, run, holds.mem_search, fun filter => ⟨find_cloneFiltered index, searchWordPrefix_cloneFiltered index⟩⟩

def ascii : Letters := ⟨Char.toUpper, Char.toLower, List.map Char.toLower, Char.isUpper, Char.isLower⟩

theorem search_exact_names : ∃ index : Index Text,
    ["fooBar".toList, "barrel".toList].foldlM (Index.insertAsWords ascii id) Index.default = .ok index ∧
    "barrel".toList ∈ index.searchWordPrefix ascii id "BL".toList := by
  obtain ⟨index, run, search, -⟩ := search_exact ascii id ["fooBar".toList, "barrel".toList] (by decide)
  exact ⟨index, run, (search _ _).mpr ⟨by decide, .inr ⟨'b', ['l'], by decide, ⟨'B', by decide, .inl rfl⟩, by decide⟩⟩⟩

/-- The characters need not be in the name from the word on that has the first of them. -/
theorem matches_before_word : ∃ index : Index Text,
    ["abcBa".toList].foldlM (Index.insertAsWords ascii id) Index.default = .ok index ∧
    index.searchWordPrefix ascii id "bc".toList = ["abcBa".toList] ∧
    ¬ ∃ word ∈ wordIndices ascii "abcBa".toList, word.head?.map Char.toLower = some 'b' ∧
      containsCharsInOrder ascii word "bc".toList = true := by
  refine ⟨_, rfl, by decide, by decide⟩

end TypeScriptRs.Autoimport
