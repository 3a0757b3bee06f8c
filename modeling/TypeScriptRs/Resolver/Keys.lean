import TypeScriptRs.Resolver.Exports

/-! The keys of export and import maps, and the orders they are tried in. -/
namespace TypeScriptRs.Resolver
open Utf8 Comparison List

section
variable {a b : Text}

/-- `compare_pattern_keys` of the utilities. -/
def Util.comparePatternKeys (a b : Text) : Ordering :=
  match compare (baseLength b) (baseLength a) with
  | .eq => if '*' ∉ a then .gt else if '*' ∉ b then .lt else compare (bytes b) (bytes a)
  | ordering => ordering

def starRank (key : Text) : Nat := if '*' ∈ key then 0 else 1

theorem comparePatternKeys_eq (a b : Text) : comparePatternKeys a b = (compare (baseLength b) (baseLength a)).then
      ((compare (starRank a) (starRank b)).then (compare (bytes b) (bytes a))) := by
  unfold comparePatternKeys starRank
  by_cases left : '*' ∈ a <;> by_cases right : '*' ∈ b <;> simp only [left, right, decide_true, decide_false, if_true, if_false] <;> rfl

theorem lawful_comparePatternKeys : Lawful comparePatternKeys where
  swap a b := by
    rw [comparePatternKeys_eq, comparePatternKeys_eq, Ordering.swap_then, Ordering.swap_then, ← compare_swap, ← compare_swap,
      ← compare_swap]
  composes a b c := by
    simp only [comparePatternKeys_eq]
    refine (composes_compare_reverse _ _ _).then fun _ _ => ?_
    exact (composes_compare _ _ _).then fun _ _ => composes_compare_reverse _ _ _

def Tied (a b : Text) : Prop := '*' ∉ a ∧ '*' ∉ b ∧ bytes a = bytes b

theorem Tied.util_eq (tied : Tied a b) : Util.comparePatternKeys a b = .gt := by
  obtain ⟨left, right, same⟩ := tied
  unfold Util.comparePatternKeys baseLength
  rw [if_neg left, if_neg right, same, compare_eq_iff_eq.mpr rfl]
  exact if_pos left

theorem Tied.eq (tied : Tied a b) : comparePatternKeys a b = .eq := by
  obtain ⟨left, right, same⟩ := tied
  rw [comparePatternKeys_eq, baseLength, baseLength, starRank, starRank, if_neg left, if_neg right, if_neg left, if_neg right, same]
  simp only [compare_eq_iff_eq.mpr rfl]
  rfl

theorem util_eq_of_not_tied (apart : ¬ Tied a b) : Util.comparePatternKeys a b = comparePatternKeys a b := by
  rw [comparePatternKeys_eq, Util.comparePatternKeys]
  cases base : compare (baseLength b) (baseLength a) with
  | lt | gt => rfl
  | eq =>
    have same := compare_eq_iff_eq.mp base
    unfold starRank
    by_cases left : '*' ∈ a <;> by_cases right : '*' ∈ b
    · simp only [left, right, not_true, if_false, if_true]
      rfl
    · simp only [left, right, not_true, not_false_iff, if_false, if_true]
      rfl
    · simp only [left, right, not_true, not_false_iff, if_false, if_true]
      rfl
    · rw [baseLength, baseLength, if_neg left, if_neg right] at same
      exact absurd ⟨left, right, same.symm⟩ apart

theorem Tied.symm (tied : Tied a b) : Tied b a := ⟨tied.2.1, tied.1, tied.2.2.symm⟩

/-- What a list of keys asks of the version of the utilities: to order them like the resolver does. -/
structure SortsAlike (keys : List Text) : Prop where
  antisymmetric : keys.Pairwise fun a b => Util.comparePatternKeys b a = (Util.comparePatternKeys a b).swap
  transitive : ∀ a b c, [a, b, c].Subperm keys →
    Composes (Util.comparePatternKeys a b) (Util.comparePatternKeys b c) (Util.comparePatternKeys a c)
  agrees : keys.Pairwise fun a b => Util.comparePatternKeys a b = comparePatternKeys a b
  sorts : sortBy Util.comparePatternKeys keys = sortBy comparePatternKeys keys

/-- The two versions order a list of keys alike, exactly if no two keys in it are tied. -/
theorem sortsAlike_iff (keys : List Text) : SortsAlike keys ↔ keys.Pairwise fun a b => ¬ Tied a b := by
  constructor
  · intro alike
    refine alike.agrees.imp fun same tied => ?_
    rw [tied.util_eq, tied.eq] at same
    cases same
  intro apart
  have agrees : keys.Pairwise fun a b => Util.comparePatternKeys a b = comparePatternKeys a b := apart.imp util_eq_of_not_tied
  refine ⟨apart.imp fun untied => ?_, fun a b c inside => ?_, agrees, sortBy_congr agrees⟩
  · rw [util_eq_of_not_tied untied, util_eq_of_not_tied fun tied => untied tied.symm, lawful_comparePatternKeys.swap]
  have untied : [a, b, c].Pairwise fun a b => ¬ Tied a b := by
    obtain ⟨picked, same, sublist⟩ := inside
    exact (same.pairwise_iff fun untied tied => untied tied.symm).mp (apart.sublist sublist)
  obtain ⟨first, second⟩ := pairwise_cons.mp untied
  rw [util_eq_of_not_tied (first b (by simp)), util_eq_of_not_tied (first c (by simp)),
    util_eq_of_not_tied ((pairwise_cons.mp second).1 c (by simp))]
  exact lawful_comparePatternKeys.composes a b c

/-- Two directories of the same length are each greater than the other. -/
theorem directories_greater :
    Util.comparePatternKeys "./a/".toList "./b/".toList = .gt ∧ Util.comparePatternKeys "./b/".toList "./a/".toList = .gt ∧
    comparePatternKeys "./a/".toList "./b/".toList = .eq ∧ ¬ SortsAlike ["./a/".toList, "./b/".toList] := by
  refine ⟨by decide, by decide, by decide, fun alike => ?_⟩
  exact absurd ((pairwise_cons.mp alike.agrees).1 _ (mem_singleton_self _)) (by decide)

/-- A key is tried before another one: for its longer base, for its star, or for its length. -/
def Preferred (key other : Text) : Prop :=
  baseLength other < baseLength key ∨ (baseLength other = baseLength key ∧
    (('*' ∈ key ∧ '*' ∉ other) ∨ (('*' ∈ key ↔ '*' ∈ other) ∧ bytes other ≤ bytes key)))

theorem preferred_of_le {key other : Text} (before : le comparePatternKeys key other) : Preferred key other := by
  unfold le at before
  rw [comparePatternKeys_eq] at before
  cases base : compare (baseLength other) (baseLength key) with
  | lt => exact .inl (compare_lt_iff_lt.mp base)
  | gt =>
    rw [base] at before
    exact absurd rfl before
  | eq =>
    refine .inr ⟨compare_eq_iff_eq.mp base, ?_⟩
    rw [base, Ordering.eq_then] at before
    have length : ∀ {rank : Ordering}, rank = .eq → rank.then (compare (bytes other) (bytes key)) ≠ .gt → bytes other ≤ bytes key := by
      rintro _ rfl shorter
      exact compare_le_iff_le.mp shorter
    unfold starRank at before
    by_cases left : '*' ∈ key <;> by_cases right : '*' ∈ other
    · rw [if_pos left, if_pos right] at before
      exact .inr ⟨by simp [left, right], length rfl before⟩
    · exact .inl ⟨left, right⟩
    · rw [if_neg left, if_pos right] at before
      exact absurd rfl before
    · rw [if_neg left, if_neg right] at before
      exact .inr ⟨by simp [left, right], length rfl before⟩
end

section
def FitsPattern (name key subpath : Text) : Prop :=
  ∃ before after, key = before ++ '*' :: after ∧ '*' ∉ before ∧ name = before ++ subpath ++ after

def FitsPrefix (name key subpath : Text) : Prop := name = key ++ subpath ∧ ∀ part, ¬ FitsPattern name key part

/-- A name begins like a key and ends like it, but the two parts of the key overlap in it. -/
def Overlaps (name key : Text) : Prop :=
  ∃ before after, key = before ++ '*' :: after ∧ '*' ∉ before ∧ before <+: name ∧ after <:+ name ∧
    name.length < before.length + after.length

def Expanding (key : Text) : Prop := key.count '*' = 1 ∨ key.getLast? = some '/'

def Candidate (name key : Text) : Prop :=
  Expanding key ∧ (Overlaps name key ∨ (∃ subpath, FitsPattern name key subpath) ∨ ∃ subpath, FitsPrefix name key subpath)

variable {name key before after : Text}

theorem beforeStar_eq (free : '*' ∉ before) : beforeStar (before ++ '*' :: after) = before := Split.takeWhile_append_cons free after

theorem afterStar_eq (free : '*' ∉ before) : afterStar (before ++ '*' :: after) = after := by
  unfold afterStar
  rw [Split.dropWhile_append_cons free after, tail_cons]

theorem between_of_fits (begins : before <+: name) (ends : after <:+ name) (long : before.length + after.length ≤ name.length) :
    ∃ part, name = before ++ part ++ after := by
  obtain ⟨rest, rfl⟩ := begins
  have shorter : after.length ≤ rest.length := by
    rw [length_append] at long
    omega
  obtain ⟨part, rfl⟩ := suffix_of_suffix_length_le ends (suffix_append before rest) shorter
  exact ⟨part, (append_assoc before part after).symm⟩

theorem matchedText_eq (free : '*' ∉ before) (part : Text) :
    matchedText (before ++ '*' :: after) (before ++ part ++ after) = some part := by
  unfold matchedText
  rw [beforeStar_eq free, afterStar_eq free, bytes_append, Nat.add_sub_cancel, bytes_append]
  exact slice_append before part after

theorem last_star (expanding : Expanding (before ++ '*' :: after)) :
    (before ++ '*' :: after).getLast? = some '*' ↔ after = [] := by
  cases after with
  | nil => simp
  | cons c rest =>
    refine iff_of_false (fun last => ?_) (cons_ne_nil c rest)
    rcases expanding with one | directory
    · rw [List.getLast?_append_cons, List.getLast?_cons_cons] at last
      have again : '*' ∈ c :: rest := mem_of_getLast? last
      have many := count_pos_iff.mpr again
      rw [count_append, count_cons_self] at one
      omega
    · rw [last] at directory
      exact absurd directory (by decide)

theorem matchesPatternWithTrailer_iff (expanding : Expanding key) : matchesPatternWithTrailer key name = true ↔
      ∃ before after, key = before ++ '*' :: after ∧ '*' ∉ before ∧ after ≠ [] ∧ before <+: name ∧ after <:+ name := by
  unfold matchesPatternWithTrailer
  simp only [Bool.and_eq_true, decide_eq_true_eq, isPrefixOf_iff_prefix, isSuffixOf_iff_suffix, and_assoc]
  constructor
  · rintro ⟨last, star, begins, ends⟩
    have shape : key = beforeStar key ++ '*' :: afterStar key := Split.takeWhile_cut star
    refine ⟨beforeStar key, afterStar key, shape, Split.not_mem_takeWhile '*' key, fun empty => last ?_, begins, ends⟩
    rw [shape, empty]
    simp
  · rintro ⟨before, after, rfl, free, some_, begins, ends⟩
    rw [beforeStar_eq free, afterStar_eq free]
    exact ⟨fun last => some_ ((last_star expanding).mp last), by simp, begins, ends⟩

theorem endsWithStar_iff (expanding : Expanding key) :
    (key.getLast? = some '*' ∧ key.dropLast <+: name) ↔ ∃ before, key = before ++ ['*'] ∧ '*' ∉ before ∧ before <+: name := by
  constructor
  · rintro ⟨last, begins⟩
    have shape : key = beforeStar key ++ '*' :: afterStar key := Split.takeWhile_cut (mem_of_getLast? last)
    rw [shape] at expanding last
    rw [(last_star expanding).mp last] at shape
    rw [shape, dropLast_concat] at begins
    exact ⟨beforeStar key, shape, Split.not_mem_takeWhile '*' key, begins⟩
  · rintro ⟨before, rfl, -, begins⟩
    rw [dropLast_concat]
    exact ⟨by simp, begins⟩

variable {features : NodeResolutionFeatures}

theorem expandKey_plain (expanding : Expanding key) {part : Text} (fits : FitsPrefix name key part) :
    expandKey features name key = some (some part, false) := by
  obtain ⟨rfl, unlike⟩ := fits
  have middle : matchesPatternWithTrailer key (key ++ part) = false := by
    rw [← Bool.not_eq_true, matchesPatternWithTrailer_iff expanding]
    rintro ⟨before, after, rfl, free, -, begins, ends⟩
    obtain ⟨between, shape⟩ := between_of_fits begins ends (by simp only [length_append, length_cons]; omega)
    exact unlike between ⟨before, after, rfl, free, shape⟩
  have last : ¬ (key.getLast? = some '*' ∧ key.dropLast <+: key ++ part) := by
    rw [endsWithStar_iff expanding]
    rintro ⟨before, rfl, free, rest, shape⟩
    exact unlike rest ⟨before, [], rfl, free, by rw [shape, append_nil]⟩
  unfold expandKey
  have begins : key.isPrefixOf (key ++ part) = true := List.isPrefixOf_iff_prefix.mpr (prefix_append key part)
  rw [middle, Bool.and_false, if_neg Bool.false_ne_true, if_neg, if_pos begins, drop_left]
  simpa only [Bool.and_eq_true, decide_eq_true_eq, isPrefixOf_iff_prefix] using last

variable (trailers : features.exportsPatternTrailers = true)
include trailers

theorem expandKey_pattern (expanding : Expanding key) {part : Text} (fits : FitsPattern name key part) :
    expandKey features name key = some (some part, true) := by
  obtain ⟨before, after, rfl, free, rfl⟩ := fits
  unfold expandKey
  by_cases empty : after = []
  · subst empty
    have middle : matchesPatternWithTrailer (before ++ ['*']) (before ++ part) = false := by simp [matchesPatternWithTrailer]
    have rest : (before ++ part).drop before.length = part := drop_left
    simp [middle, rest]
  · have middle : matchesPatternWithTrailer (before ++ '*' :: after) (before ++ part ++ after) = true :=
      (matchesPatternWithTrailer_iff expanding).mpr ⟨before, after, rfl, free, empty,
        by rw [append_assoc]; exact prefix_append _ _, suffix_append _ _⟩
    rw [trailers, middle, Bool.true_and, if_pos rfl, matchedText_eq free]

theorem expandKey_isSome (expanding : Expanding key) : (expandKey features name key).isSome ↔ Candidate name key := by
  constructor
  · intro found
    refine ⟨expanding, ?_⟩
    unfold expandKey at found
    split at found
    · rename_i middle
      rw [trailers, Bool.true_and, matchesPatternWithTrailer_iff expanding] at middle
      obtain ⟨before, after, rfl, free, -, begins, ends⟩ := middle
      by_cases long : before.length + after.length ≤ name.length
      · obtain ⟨part, shape⟩ := between_of_fits begins ends long
        exact .inr (.inl ⟨part, before, after, rfl, free, shape⟩)
      · exact .inl ⟨before, after, rfl, free, begins, ends, by omega⟩
    split at found
    · rename_i last
      simp only [Bool.and_eq_true, decide_eq_true_eq, isPrefixOf_iff_prefix] at last
      obtain ⟨before, rfl, free, rest, shape⟩ := (endsWithStar_iff expanding).mp last
      exact .inr (.inl ⟨rest, before, [], rfl, free, by rw [shape, append_nil]⟩)
    split at found
    · rename_i begins
      obtain ⟨part, shape⟩ := List.isPrefixOf_iff_prefix.mp begins
      by_cases pattern : ∃ part, FitsPattern name key part
      · exact .inr (.inl pattern)
      · exact .inr (.inr ⟨part, shape.symm, not_exists.mp pattern⟩)
    · cases found
  · rintro ⟨-, ⟨before, after, rfl, free, begins, ends, short⟩ | ⟨part, fits⟩ | ⟨part, fits⟩⟩
    · have some_ : after ≠ [] := by
        rintro rfl
        have := begins.length_le
        rw [length_nil] at short
        omega
      have middle : matchesPatternWithTrailer (before ++ '*' :: after) name = true :=
        (matchesPatternWithTrailer_iff expanding).mpr ⟨before, after, rfl, free, some_, begins, ends⟩
      unfold expandKey
      rw [trailers, middle, Bool.true_and, if_pos rfl]
      rfl
    · rw [expandKey_pattern trailers expanding fits]
      rfl
    · rw [expandKey_plain expanding fits]
      rfl
end

variable {features : NodeResolutionFeatures} (trailers : features.exportsPatternTrailers = true)
  {table : List (Text × JsonValue)} {name : Text}

theorem mem_expandingKeys {key : Text} : key ∈ expandingKeys table ↔ key ∈ table.map (·.1) ∧ Expanding key := by
  unfold expandingKeys Expanding
  rw [mem_sortBy, mem_filter, Bool.or_eq_true, decide_eq_true_eq, decide_eq_true_eq]

theorem lookup_isSome {key : Text} (listed : key ∈ table.map (·.1)) : (lookup table key).isSome := by
  obtain ⟨entry, member, rfl⟩ := mem_map.mp listed
  unfold lookup
  rw [Option.isSome_map, List.find?_isSome]
  exact ⟨entry, member, decide_eq_true rfl⟩

/-- What `load_module_from_exports_or_imports` does with a key. -/
def tryKey (features : NodeResolutionFeatures) (table : List (Text × JsonValue)) (name key : Text) :
    Option (JsonValue × Option Text × Bool) := do
  let target ← lookup table key
  let (subpath, isPattern) ← expandKey features name key
  pure (target, subpath, isPattern)

include trailers

theorem tryKey_isSome {key : Text} (listed : key ∈ expandingKeys table) :
    (tryKey features table name key).isSome ↔ Candidate name key := by
  obtain ⟨inside, expanding⟩ := mem_expandingKeys.mp listed
  obtain ⟨target, found⟩ := Option.isSome_iff_exists.mp (lookup_isSome inside)
  rw [← expandKey_isSome trailers expanding, tryKey, found]
  cases expandKey features name key <;> rfl

theorem findSome?_tryKey (some_ : ∃ key ∈ table.map (·.1), Candidate name key) :
    ∃ key ∈ table.map (·.1), Candidate name key ∧ (∀ other ∈ table.map (·.1), Candidate name other → Preferred key other) ∧
      (expandingKeys table).findSome? (tryKey features table name) = tryKey features table name key := by
  obtain ⟨key, inside, candidate⟩ := some_
  have listed : key ∈ expandingKeys table := mem_expandingKeys.mpr ⟨inside, candidate.1⟩
  have found : ((expandingKeys table).findSome? (tryKey features table name)).isSome :=
    List.findSome?_isSome_iff.mpr ⟨key, listed, (tryKey_isSome trailers listed).mpr candidate⟩
  obtain ⟨choice, chosen⟩ := Option.isSome_iff_exists.mp found
  obtain ⟨before, best, after, shape, choice_, skipped⟩ := List.findSome?_eq_some_iff.mp chosen
  have here : best ∈ expandingKeys table := by simp [shape]
  refine ⟨best, (mem_expandingKeys.mp here).1, (tryKey_isSome trailers here).mp (choice_ ▸ rfl), fun other inside' candidate' => ?_,
    chosen.trans choice_.symm⟩
  have there : other ∈ expandingKeys table := mem_expandingKeys.mpr ⟨inside', candidate'.1⟩
  have tried := (tryKey_isSome trailers there).mpr candidate'
  have sorted : (expandingKeys table).Pairwise (le comparePatternKeys) := pairwise_sortBy lawful_comparePatternKeys _
  rw [shape] at there sorted
  refine preferred_of_le ?_
  rcases mem_append.mp there with earlier | later
  · rw [skipped other earlier] at tried
    cases tried
  rcases mem_cons.mp later with rfl | after_
  · unfold le
    rw [lawful_comparePatternKeys.refl]
    decide
  · exact (pairwise_cons.mp (pairwise_append.mp sorted).2.1).1 other after_

omit trailers

section
variable (host : Host) (restart : ResolutionM ResolvedModule) (extensions : Extensions) (scope : InfoCacheEntry)
  (isImports : Bool) {state : ResolutionState}

/-- The exact key is used for names without a star that do not end in a slash. Other names use the candidate that is preferred to all
others, with the part that it leaves open, unless its two parts overlap in the name. -/
def LoadsByKey (name : Text) (table : List (Text × JsonValue)) (state : ResolutionState) : Prop :=
  (∀ target, exactEntry table name = some target →
    loadModuleFromExportsOrImports host restart extensions name table scope isImports state =
      loadModuleFromTargetExportOrImport host restart extensions scope isImports [] false target state) ∧
  (exactEntry table name = none →
    ((∀ key ∈ table.map (·.1), ¬ Candidate name key) →
      loadModuleFromExportsOrImports host restart extensions name table scope isImports state = (pure none : ResolutionM _) state) ∧
    ((∃ key ∈ table.map (·.1), Candidate name key) →
      ∃ key ∈ table.map (·.1), Candidate name key ∧ (∀ other ∈ table.map (·.1), Candidate name other → Preferred key other) ∧
        ∃ target, lookup table key = some target ∧ ∀ subpath,
          (FitsPattern name key subpath → loadModuleFromExportsOrImports host restart extensions name table scope isImports state =
            loadModuleFromTargetExportOrImport host restart extensions scope isImports subpath true target state) ∧
          (FitsPrefix name key subpath → loadModuleFromExportsOrImports host restart extensions name table scope isImports state =
            loadModuleFromTargetExportOrImport host restart extensions scope isImports subpath false target state)))

/-- Exports and imports are loaded by the key that is selected so. -/
theorem loadModuleFromExportsOrImports_spec (trailers : state.features.exportsPatternTrailers = true) :
    LoadsByKey host restart extensions scope isImports name table state := by
  have selected : ∀ target subpath isPattern, selectTarget state.features name table = some (target, some subpath, isPattern) →
      loadModuleFromExportsOrImports host restart extensions name table scope isImports state =
        loadModuleFromTargetExportOrImport host restart extensions scope isImports subpath isPattern target state := by
    intro target subpath isPattern selected
    unfold loadModuleFromExportsOrImports
    rw [get_bind, selected]
    rfl
  refine ⟨fun target exact_ => selected target [] false (by rw [selectTarget, exact_]), fun inexact => ⟨fun nowhere => ?_, fun some_ => ?_⟩⟩
  · have nothing : selectTarget state.features name table = none := by
      rw [selectTarget, inexact]
      refine List.findSome?_eq_none_iff.mpr fun key listed => ?_
      have untried := (not_congr (tryKey_isSome trailers listed)).mpr (nowhere key (mem_expandingKeys.mp listed).1)
      exact Option.not_isSome_iff_eq_none.mp untried
    unfold loadModuleFromExportsOrImports
    rw [get_bind, nothing]
  obtain ⟨key, inside, candidate, best, chosen⟩ := findSome?_tryKey trailers some_
  obtain ⟨target, found⟩ := Option.isSome_iff_exists.mp (lookup_isSome inside)
  have result : ∀ subpath isPattern, expandKey state.features name key = some (some subpath, isPattern) →
      selectTarget state.features name table = some (target, some subpath, isPattern) := by
    intro subpath isPattern expanded
    rw [selectTarget, inexact]
    refine chosen.trans ?_
    rw [tryKey, found, expanded]
    rfl
  refine ⟨key, inside, candidate, best, target, found, fun subpath => ⟨fun fits => ?_, fun fits => ?_⟩⟩
  · exact selected _ _ _ (result subpath true (expandKey_pattern trailers candidate.1 fits))
  · exact selected _ _ _ (result subpath false (expandKey_plain candidate.1 fits))
end

def emptyHost : Host where
  currentDirectory := "/".toList
  useCaseSensitiveFileNames := true
  fileExists _ := false
  directoryExists _ := false
  realpath path := path
  readFile _ := []
  parse _ := none
  matchesVersion _ := false
  toLowercase c := [c]
  typingsLocation := []

def freshState (name : Text) : ResolutionState where
  name := name
  containingDirectory := "/p".toList
  features := .all
  esmMode := false
  conditions := []
  extensions := ⟨true, true, true, true⟩
  compilerOptions := {}

def libTable : List (Text × JsonValue) := [("./*".toList, .string "./dist/*.js".toList), ("./lib/*".toList, .string "./lib/*.js".toList)]

theorem loadModuleFromExportsOrImports_spec_lib :
    LoadsByKey emptyHost (pure ⟨[], [], [], [], false, {}, false, []⟩) ⟨true, true, true, true⟩ ⟨"/p/node_modules/x".toList, true, none⟩ false
      "./lib/a".toList libTable (freshState "x/lib/a".toList) :=
  loadModuleFromExportsOrImports_spec _ _ _ _ _ rfl

def directoryTable : List (Text × JsonValue) := [("./a/".toList, .string "./main/".toList), ("./a/*".toList, .string "./other/*".toList)]

/-- A name that is a key is loaded by another key when it ends in a slash. -/
theorem exactDirectory_passedOver :
    lookup directoryTable "./a/".toList = some (.string "./main/".toList) ∧
    selectTarget .all "./a/".toList directoryTable = some (.string "./other/*".toList, some [], true) := by
  exact ⟨rfl, rfl⟩

end TypeScriptRs.Resolver
