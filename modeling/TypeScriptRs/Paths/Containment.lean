import TypeScriptRs.Paths.CommonParents

/-! Absolute paths as a root and names, and which contain each other. -/
namespace TypeScriptRs.Paths
open Utf8 List

section
/-- A path that is a root and names, written as they are joined. -/
structure IsAbsolutePath (path : Text) : Prop where
  slashed : Slashed path
  rooted : rootOf path ≠ []
  written : normalized path = path

variable {path : Text}

theorem isAbsolutePath_iff : IsAbsolutePath path ↔ '\\' ∉ path ∧ rootOf path ≠ [] ∧ normalized path = path :=
  ⟨fun absolute => ⟨absolute.slashed, absolute.rooted, absolute.written⟩, fun parts => ⟨parts.1, parts.2.1, parts.2.2⟩⟩

instance : Decidable (IsAbsolutePath path) := decidable_of_iff _ isAbsolutePath_iff.symm

section
variable (absolute : IsAbsolutePath path)
include absolute

theorem IsAbsolutePath.regular : ∀ c ∈ reducedOf path, Proper c ∧ c ≠ ['.', '.'] :=
  regular_reducedOf absolute.slashed absolute.rooted (nil_append _).symm

theorem IsAbsolutePath.proper : ∀ c ∈ reducedOf path, Proper c :=
  fun c listed => (absolute.regular c listed).1

theorem IsAbsolutePath.afterRoot_eq : afterRoot path = join (reducedOf path) := by
  have whole := rootOf_append_afterRoot path
  have written := absolute.written
  exact append_cancel_left (whole.trans written.symm)

theorem IsAbsolutePath.closed (some_ : reducedOf path ≠ []) : (rootOf path).getLast? = some '/' := by
  refine rootOf_getLast absolute.slashed absolute.rooted ?_
  rw [absolute.afterRoot_eq]
  exact join_ne_nil some_ absolute.proper

theorem IsAbsolutePath.stays {name : Text} (first : (reducedOf path)[0]? = some name) :
    rootOf (rootOf path ++ name) = rootOf path := by
  obtain ⟨rest, names⟩ : ∃ rest, reducedOf path = name :: rest := by
    cases shape : reducedOf path with
    | nil =>
      rw [shape] at first
      cases first
    | cons name' rest =>
      rw [shape] at first
      exact ⟨rest, congrArg (· :: rest) (Option.some.inj first)⟩
  have proper := absolute.proper
  rw [names] at proper
  have here := proper name mem_cons_self
  have after := absolute.afterRoot_eq
  have more : afterRoot path ≠ [] := by
    rw [after, names]
    exact join_ne_nil (cons_ne_nil _ _) proper
  have extend := fun other => rootOf_extend absolute.slashed absolute.rooted more other
  have nothing : rootExtension (rootOf path) (join (name :: rest)) = [] := by
    have whole := extend (join (name :: rest)) fun _ => head_join proper (cons_ne_nil _ _)
    rw [← names, ← after, rootOf_append_afterRoot] at whole
    rw [← names, ← after]
    exact self_eq_append_right.mp whole
  rw [extend name fun _ slash => here.free (mem_of_head? slash)]
  refine append_right_eq_self.mpr ?_
  unfold rootExtension at nothing ⊢
  split
  · rename_i base
    rw [if_pos base] at nothing
    rcases fileUrlVolume_cases name with none | ⟨v, separator, _, letter, found, whole | slash⟩
    · exact none
    · by_cases last : rest = []
      · have single : join [name] = name := intercalate_singleton
        rw [last, single, whole.2] at nothing
        cases nothing
      · rw [join_cons name last, whole.1, fileUrlVolume_slash letter found] at nothing
        cases nothing
    · refine absurd ?_ here.free
      rw [slash.1]
      simp
  · rfl

theorem IsAbsolutePath.front {front back : List Text} (names : reducedOf path = front ++ back) :
    rootOf (rootOf path ++ join front) = rootOf path ∧ reducedOf (rootOf path ++ join front) = front ∧
      IsAbsolutePath (rootOf path ++ join front) := by
  have regular : ∀ c ∈ front, Proper c ∧ c ≠ ['.', '.'] := by
    intro c listed
    refine absolute.regular c ?_
    rw [names]
    exact mem_append_left _ listed
  have proper : ∀ c ∈ front, Proper c := fun c listed => (regular c listed).1
  have root := slashed_rootOf absolute.slashed
  have same : rootOf (rootOf path ++ join front) = rootOf path := by
    refine rootOf_names root absolute.rooted (rootOf_rootOf absolute.slashed absolute.rooted) proper fun name first => ?_
    refine absolute.stays ?_
    rw [names]
    exact (List.getElem?_append_left (List.getElem?_eq_some_iff.mp first).1).trans first
  refine ⟨same, ?_, ?_, ?_, normalized_regular regular same⟩
  · rw [reducedOf, same, Paths.afterRoot_eq same, reduceText_join _ _ proper, foldl_regular _ _ regular, nil_append]
  · unfold Slashed
    rw [mem_append]
    exact fun either => either.elim root (slashed_join proper)
  · rw [same]
    exact absolute.rooted
end

theorem beforeLastSeparator_append {front name : Text} (closed : front.getLast? = some '/') (free : '/' ∉ name) :
    beforeLastSeparator (front ++ name) = front.dropLast := by
  have cut : (front ++ name).reverse = name.reverse ++ '/' :: front.dropLast.reverse := by
    conv_lhs => rw [← dropLast_append_getLast? _ closed]
    simp
  have skipped : (name.reverse ++ '/' :: front.dropLast.reverse).dropWhile (· ≠ '/') = '/' :: front.dropLast.reverse := by
    rw [dropWhile_append_of_pos]
    · rfl
    · intro c listed
      rw [decide_eq_true_eq]
      rintro rfl
      exact free (mem_reverse.mp listed)
  rw [beforeLastSeparator, cut, skipped, tail_cons, reverse_reverse]

theorem getDirectoryPath_eq (absolute : IsAbsolutePath path) :
    getDirectoryPath path = rootOf path ++ join (reducedOf path).dropLast := by
  have written := absolute.written
  unfold normalized at written
  unfold getDirectoryPath
  dsimp only
  rw [normalizeSlashes_of_slashed absolute.slashed]
  by_cases bare : reducedOf path = []
  · have same : rootOf path = path := by
      have empty : join [] = [] := rfl
      rw [bare, empty, append_nil] at written
      exact written
    have empty : join ([] : List Text).dropLast = [] := rfl
    rw [bare, empty, same, if_pos rfl, append_nil]
  have proper := absolute.proper
  have longer : (rootOf path).length ≠ path.length := by
    have filled := length_pos_of_ne_nil (join_ne_nil bare proper)
    have lengths := congrArg List.length written
    rw [length_append] at lengths
    omega
  have untrailed : removeTrailingDirectorySeparator path = path := by
    unfold removeTrailingDirectorySeparator
    rw [← written, hasTrailingDirectorySeparator_join _ proper bare]
    rfl
  obtain ⟨front, last, names⟩ := (eq_nil_or_concat' (reducedOf path)).resolve_left bare
  rw [if_neg longer, untrailed, names, dropLast_concat]
  have closed := absolute.closed bare
  rw [names] at written proper
  have free := (proper last (by simp)).free
  rw [join_concat, ← append_assoc] at written
  generalize rootOf path = root at written closed
  subst written
  unfold lead
  split
  · rename_i none
    have empty : join [] = [] := rfl
    rw [append_nil, beforeLastSeparator_append closed free, none, empty, append_nil, length_dropLast,
      Nat.max_eq_left (Nat.sub_le _ _), take_left]
  · have last_ : (root ++ (join front ++ ['/'])).getLast? = some '/' := by rw [← append_assoc, List.getLast?_concat]
    rw [beforeLastSeparator_append last_ free, ← append_assoc, dropLast_concat, length_append,
      Nat.max_eq_right (Nat.le_add_right _ _), ← length_append, append_assoc, take_left]
end

def pathContainsPath (parent child : Text) : Bool :=
  parent ≠ [] && (parent = child ||
    (parent.length < child.length && parent.isPrefixOf child &&
      (parent.getLast? = some '/' || child[parent.length]? = some '/')))

variable {parent child path : Text}

theorem pathContainsPath_iff : pathContainsPath parent child = true ↔ parent ≠ [] ∧ (parent = child ∨
    ∃ rest, rest ≠ [] ∧ child = parent ++ rest ∧ (parent.getLast? = some '/' ∨ rest.head? = some '/')) := by
  unfold pathContainsPath
  simp only [Bool.and_eq_true, Bool.or_eq_true, decide_eq_true_eq]
  refine and_congr_right fun _ => or_congr_right ?_
  constructor
  · rintro ⟨⟨longer, starts⟩, separated⟩
    obtain ⟨rest, rfl⟩ := List.isPrefixOf_iff_prefix.mp starts
    rw [length_append] at longer
    rw [List.getElem?_append_right (Nat.le_refl _), Nat.sub_self, ← List.head?_eq_getElem?] at separated
    exact ⟨rest, ne_nil_of_length_pos (by omega), rfl, separated⟩
  rintro ⟨rest, some_, rfl, separated⟩
  have longer := length_pos_of_ne_nil some_
  refine ⟨⟨?_, List.isPrefixOf_iff_prefix.mpr (prefix_append _ _)⟩, ?_⟩
  · rw [length_append]
    omega
  · rwa [List.getElem?_append_right (Nat.le_refl _), Nat.sub_self, ← List.head?_eq_getElem?]

theorem pathContainsPath_self (some_ : path ≠ []) : pathContainsPath path path = true :=
  pathContainsPath_iff.mpr ⟨some_, .inl rfl⟩

theorem pathContainsPath_trans (first : pathContainsPath parent child = true) (second : pathContainsPath child path = true) :
    pathContainsPath parent path = true := by
  obtain ⟨some_, same | ⟨rest, more, shape, separated⟩⟩ := pathContainsPath_iff.mp first
  · rwa [same]
  obtain ⟨-, same | ⟨rest', -, shape', -⟩⟩ := pathContainsPath_iff.mp second
  · rwa [← same]
  · refine pathContainsPath_iff.mpr ⟨some_, .inr ⟨rest ++ rest', append_ne_nil_of_left_ne_nil more _, ?_, ?_⟩⟩
    · rw [shape', shape, append_assoc]
    · rwa [List.head?_append_of_ne_nil _ more]

theorem pathContainsPath_join {root : Text} {front back : List Text} (closed : back ≠ [] → root.getLast? = some '/')
    (rooted : root ≠ []) (proper : ∀ c ∈ back, Proper c) :
    pathContainsPath (root ++ join front) (root ++ join (front ++ back)) = true := by
  by_cases whole : back = []
  · rw [whole, append_nil]
    exact pathContainsPath_self (append_ne_nil_of_left_ne_nil rooted _)
  by_cases none : front = []
  · have empty : join [] = [] := rfl
    rw [none, empty, append_nil, nil_append]
    exact pathContainsPath_iff.mpr ⟨rooted, .inr ⟨join back, join_ne_nil whole proper, rfl, .inl (closed whole)⟩⟩
  · have cut : join (front ++ back) = join front ++ '/' :: join back := Split.intercalate_append none whole
    rw [cut, ← append_assoc]
    exact pathContainsPath_iff.mpr ⟨append_ne_nil_of_left_ne_nil rooted _, .inr ⟨_, cons_ne_nil _ _, rfl, .inr rfl⟩⟩

theorem IsAbsolutePath.directory (absolute : IsAbsolutePath path) : IsAbsolutePath (getDirectoryPath path) ∧
    pathContainsPath (getDirectoryPath path) path = true := by
  rw [getDirectoryPath_eq absolute]
  by_cases bare : reducedOf path = []
  · have written := absolute.written
    unfold normalized at written
    have same : rootOf path ++ join (reducedOf path).dropLast = path := by
      rw [bare]
      rw [bare] at written
      exact written
    rw [same]
    exact ⟨absolute, pathContainsPath_self fun none => absolute.rooted (by rw [none]; rfl)⟩
  obtain ⟨front, last, names⟩ := (eq_nil_or_concat' (reducedOf path)).resolve_left bare
  refine ⟨?_, ?_⟩
  · rw [names, dropLast_concat]
    exact (absolute.front names).2.2
  have written := absolute.written
  unfold normalized at written
  have proper := absolute.proper
  rw [names] at proper
  have contains := @pathContainsPath_join (rootOf path) front [last] (fun _ => absolute.closed bare) absolute.rooted
    fun c listed => proper c (mem_append_right _ listed)
  rw [← names, written] at contains
  rw [names, dropLast_concat]
  exact contains

def separated (path : Text) : Text := if path.getLast? = some '/' then path else path ++ ['/']

theorem IsAbsolutePath.below (absolute : IsAbsolutePath path) :
    path = getDirectoryPath path ∨ ∃ last, '/' ∉ last ∧ path = separated (getDirectoryPath path) ++ last := by
  have written := absolute.written
  unfold normalized at written
  rw [getDirectoryPath_eq absolute]
  by_cases bare : reducedOf path = []
  · refine .inl ?_
    rw [bare] at written ⊢
    exact written.symm
  obtain ⟨front, last, names⟩ := (eq_nil_or_concat' (reducedOf path)).resolve_left bare
  have proper := absolute.proper
  have closed := absolute.closed bare
  rw [names] at proper written
  refine .inr ⟨last, (proper last (by simp)).free, ?_⟩
  rw [names, dropLast_concat]
  rw [join_concat, ← append_assoc] at written
  refine written.symm.trans (congrArg (· ++ last) ?_)
  unfold separated lead
  by_cases none : front = []
  · have empty : join [] = [] := rfl
    rw [if_pos none, none, empty, append_nil, if_pos closed]
  have open_ : ¬(rootOf path ++ join front).getLast? = some '/' := by
    intro slash
    have trailing := hasTrailingDirectorySeparator_of_getLast slash
    rw [hasTrailingDirectorySeparator_join _ (fun c listed => proper c (mem_append_left _ listed)) none] at trailing
    cases trailing
  rw [if_neg none, if_neg open_, append_assoc]

theorem IsAbsolutePath.begins_directory {front : Text} (absolute : IsAbsolutePath path) (begins : front ++ ['/'] <+: path) :
    front ++ ['/'] <+: separated (getDirectoryPath path) := by
  rcases absolute.below with same | ⟨last, free, shape⟩
  · rw [← same]
    unfold separated
    split
    · exact begins
    · exact begins.trans (prefix_append _ _)
  rw [shape] at begins
  rcases prefix_or_prefix_of_prefix begins (prefix_append _ _) with inside | ⟨more, longer⟩
  · exact inside
  rcases eq_nil_or_concat' more with rfl | ⟨more', c, rfl⟩
  · rw [append_nil] at longer
    exact ⟨[], longer ▸ append_nil _⟩
  -- the separator would be in the name
  obtain rfl : c = '/' := by simpa using congrArg List.getLast? longer
  obtain ⟨rest, whole⟩ := begins
  rw [← longer, append_assoc, append_assoc] at whole
  refine absurd ?_ free
  rw [← append_cancel_left whole]
  simp

theorem pathContainsPath_of_begins {front directory : Text} (some_ : front ≠ []) (begins : front ++ ['/'] <+: separated directory) :
    pathContainsPath front directory = true := by
  have inside : front = directory ∨ front ++ ['/'] <+: directory := by
    unfold separated at begins
    split at begins
    · exact .inr begins
    · exact (prefix_concat_iff.mp begins).imp_left fun same => append_cancel_right same
  rcases inside with rfl | ⟨rest, rfl⟩
  · exact pathContainsPath_self some_
  · refine pathContainsPath_iff.mpr ⟨some_, .inr ⟨'/' :: rest, cons_ne_nil _ _, ?_, .inr rfl⟩⟩
    rw [append_assoc]
    rfl

end TypeScriptRs.Paths
