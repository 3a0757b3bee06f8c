import TypeScriptRs.Lib.Prefixes
import TypeScriptRs.Lib.SortedGroups
import TypeScriptRs.Paths.Ordering

/-! The directories that paths have in common, found by the keys of their components. -/
namespace TypeScriptRs.Paths
open Utf8 Machine Comparison Prefixes List
open Resolver (normalizePath isRootedDiskPath)
open SortedGroups (groupBy keys_groupBy mem_groupBy)

section
variable (toLowercase : Char → Text)

def toPath (fileName basePath : Text) (useCaseSensitiveFileNames : Bool) : Text :=
  let path := if isRootedDiskPath fileName then normalizePath fileName else getNormalizedAbsolutePath fileName basePath
  getCanonicalFileName toLowercase path useCaseSensitiveFileNames

variable (options : ComparePathsOptions)

/-- Roots are compared without case, and the components after them as the options say. -/
def componentsAgree (pair : (Text × Text) × Nat) : Bool :=
  if pair.2 = 0 then toFileNameLowerCase toLowercase pair.1.1 = toFileNameLowerCase toLowercase pair.1.2
  else options.equalStrings toLowercase pair.1.1 pair.1.2

def containsPath (parent child : Text) : Bool :=
  let parent := combinePaths options.currentDirectory [parent]
  let child := combinePaths options.currentDirectory [child]
  if parent = [] || child = [] then false
  else if parent = child then true
  else
    let parent := reducePathComponents (getPathComponents parent [])
    let child := reducePathComponents (getPathComponents child [])
    parent.length ≤ child.length && (parent.zip child).zipIdx.all (componentsAgree toLowercase options)

def reducedComponents (path : Text) : List Text := reducePathComponents (getPathComponents path options.currentDirectory)

def subtract (a b : Nat) : Outcome Nat := if a < b then .panic "attempt to subtract with overflow" else .ok (a - b)

def groupKey (component : Text) : Text :=
  toPath toLowercase component options.currentDirectory options.useCaseSensitiveFileNames

/-- The first place where one of the others differs from the first list; all have a component there. -/
def firstDifference (first : List Text) (others : List (List Text)) (maxDepth : Nat) : Option Nat :=
  (List.range maxDepth).find? fun index => others.any fun components =>
    !options.equalStrings toLowercase (first.getD index []) (components.getD index [])

/-- The lists by the keys of their components at an index, in the order of the keys. -/
def grouped (index : Nat) (componentGroups : List (List Text)) : List (Text × List (List Text)) :=
  sortBy (fun a b => compareText a.1 b.1) (groupBy (fun group => groupKey toLowercase options (group.getD index [])) componentGroups)

def getCommonParentsWorker : Nat → List (List Text) → Nat → Outcome (List (List Text))
  | 0, _, _ => .err "out of fuel"
  | _ + 1, [], _ => .ok []
  | fuel + 1, first :: others, minComponents =>
    let maxDepth := others.foldl (fun depth components => min depth components.length) first.length
    match firstDifference toLowercase options first others maxDepth with
    | none => .ok [first.take maxDepth]
    | some index =>
      if index < minComponents then do
        let results ← (grouped toLowercase options index (first :: others)).mapM fun entry => do
          let rest ← subtract minComponents (index + 1)
          let subResults ← getCommonParentsWorker fuel (entry.2.map (List.drop (index + 1))) rest
          pure (subResults.map ((entry.2.headD []).take (index + 1) ++ ·))
        pure results.flatten
      else .ok [first.take index]

def getCommonParents (paths : List Text) (minComponents : Nat) : Outcome (List Text × Finset Text) :=
  if minComponents < 1 then .panic "minComponents must be at least 1"
  else
    match paths with
    | [] => .ok ([], ∅)
    | [path] =>
      if (reducedComponents options path).length < minComponents then .ok ([], {path}) else .ok ([path], ∅)
    | paths => do
      let ignored := paths.filter fun path => (reducedComponents options path).length < minComponents
      let pathComponents := (paths.map (reducedComponents options)).filter fun components => ¬ components.length < minComponents
      let parents ← getCommonParentsWorker toLowercase options (minComponents + 1) pathComponents minComponents
      pure (parents.map getPathFromPathComponents, ignored.toFinset)
end

section
variable {toLowercase : Char → Text} {options : ComparePathsOptions} {first : List Text} {others groups : List (List Text)}
  {index maxDepth : Nat}

/-- Components in the same place have the same key just if they are compared as equal. -/
def GroupsAlike (toLowercase : Char → Text) (options : ComparePathsOptions) (groups : List (List Text)) : Prop :=
  ∀ l ∈ groups, ∀ l' ∈ groups, ∀ (i : Nat) (a b : Text), l[i]? = some a → l'[i]? = some b →
    (groupKey toLowercase options a = groupKey toLowercase options b ↔ options.key toLowercase a = options.key toLowercase b)

theorem getElem?_getD {l : List Text} (inside : index < l.length) : l[index]? = some (l.getD index []) := by
  rw [getD_eq_getElem?_getD, List.getElem?_eq_getElem inside]
  rfl

theorem le_foldl_min (bound start : Nat) (others : List (List Text)) :
    bound ≤ others.foldl (fun depth components => min depth components.length) start ↔
      bound ≤ start ∧ ∀ l ∈ others, bound ≤ l.length := by
  induction others generalizing start with
  | nil => simp
  | cons l others ih => rw [foldl_cons, ih, le_min_iff, forall_mem_cons, and_assoc]

theorem agree_of_same (inside : ∀ l ∈ first :: others, index < l.length)
    (same : (others.any fun components => !options.equalStrings toLowercase (first.getD index []) (components.getD index [])) = false) :
    ∀ l ∈ first :: others, (first[index]?).map (options.key toLowercase) = (l[index]?).map (options.key toLowercase) := by
  intro l member
  rcases mem_cons.mp member with rfl | later
  · rfl
  · have equal := any_eq_false.mp same l later
    rw [equalStrings_eq] at equal
    rw [getElem?_getD (inside first (by simp)), getElem?_getD (inside l member)]
    exact congrArg some (by simpa using equal)

theorem firstDifference_none (inside : ∀ l ∈ first :: others, maxDepth ≤ l.length)
    (found : firstDifference toLowercase options first others maxDepth = none) :
    ∀ l ∈ first :: others, ∀ i < maxDepth, (first[i]?).map (options.key toLowercase) = (l[i]?).map (options.key toLowercase) := by
  intro l member i below
  have same := List.find?_eq_none.mp found i (mem_range.mpr below)
  exact agree_of_same (fun l member => below.trans_le (inside l member)) (Bool.eq_false_iff.mpr same) l member

theorem firstDifference_some (inside : ∀ l ∈ first :: others, maxDepth ≤ l.length)
    (found : firstDifference toLowercase options first others maxDepth = some index) : index < maxDepth ∧
    ∀ l ∈ first :: others, ∀ i < index, (first[i]?).map (options.key toLowercase) = (l[i]?).map (options.key toLowercase) := by
  obtain ⟨-, reached, before⟩ := List.find?_range_eq_some.mp found
  have short := mem_range.mp reached
  refine ⟨short, fun l member i below => ?_⟩
  have same := before i below
  refine agree_of_same (fun l member => (below.trans short).trans_le (inside l member)) ?_ l member
  simpa using same

theorem mem_grouped (e : Text × List (List Text)) : e ∈ grouped toLowercase options index groups ↔
    e.1 ∈ groups.map (fun group => groupKey toLowercase options (group.getD index [])) ∧
      e.2 = groups.filter fun group => decide (groupKey toLowercase options (group.getD index []) = e.1) := by
  unfold grouped
  rw [mem_sortBy, mem_groupBy]

theorem grouped_distinct (index : Nat) (groups : List (List Text)) :
    (grouped toLowercase options index groups).Pairwise fun e e' => e.1 ≠ e'.1 := by
  have distinct := (keys_groupBy (fun group => groupKey toLowercase options (group.getD index [])) groups).1
  unfold List.Nodup at distinct
  rw [pairwise_map] at distinct
  exact distinct.perm (perm_insertionSort _ _).symm Ne.symm

theorem group_members {e : Text × List (List Text)} (listed : e ∈ grouped toLowercase options index groups) :
    (∀ l ∈ e.2, l ∈ groups ∧ groupKey toLowercase options (l.getD index []) = e.1) ∧ e.2.headD [] ∈ e.2 := by
  obtain ⟨known, same⟩ := (mem_grouped e).mp listed
  have members : ∀ l, l ∈ e.2 ↔ l ∈ groups ∧ groupKey toLowercase options (l.getD index []) = e.1 := by
    intro l
    rw [same, mem_filter, decide_eq_true_eq]
  refine ⟨fun l member => (members l).mp member, ?_⟩
  obtain ⟨l, member, key⟩ := mem_map.mp known
  have inside := (members l).mpr ⟨member, key⟩
  cases shape : e.2 with
  | nil =>
    rw [shape] at inside
    cases inside
  | cons l' rest => exact mem_cons_self

theorem GroupsAlike.drop (alike : GroupsAlike toLowercase options groups) {members : List (List Text)} (n : Nat)
    (known : ∀ l ∈ members, l ∈ groups) : GroupsAlike toLowercase options (members.map (List.drop n)) := by
  intro l member l' member' i a b here there
  obtain ⟨l, inside, rfl⟩ := mem_map.mp member
  obtain ⟨l', inside', rfl⟩ := mem_map.mp member'
  rw [List.getElem?_drop] at here there
  exact alike l (known l inside) l' (known l' inside') _ a b here there

theorem covers_grouped {minComponents : Nat} {found : Text × List (List Text) → List (List Text)}
    (alike : GroupsAlike toLowercase options groups) (inside : ∀ l ∈ groups, index < l.length)
    (agree : ∀ l ∈ groups, ∀ l' ∈ groups, ∀ i < index,
      (l[i]?).map (options.key toLowercase) = (l'[i]?).map (options.key toLowercase))
    (below : ∀ e ∈ grouped toLowercase options index groups, Covers (options.key toLowercase) (minComponents - (index + 1))
      (e.2.map (List.drop (index + 1))) (found e)) :
    Covers (options.key toLowercase) minComponents groups ((grouped toLowercase options index groups).flatMap fun e =>
      (found e).map ((e.2.headD []).take (index + 1) ++ ·)) := by
  have same : ∀ l ∈ groups, ∀ l' ∈ groups, groupKey toLowercase options (l.getD index []) =
      groupKey toLowercase options (l'.getD index []) →
        (l.take (index + 1)).map (options.key toLowercase) = (l'.take (index + 1)).map (options.key toLowercase) := by
    intro l member l' member' keys
    refine take_agree fun i reach => ?_
    rcases Nat.lt_succ_iff_lt_or_eq.mp reach with before | rfl
    · exact agree l member l' member' i before
    · have here := getElem?_getD (inside l member)
      have there := getElem?_getD (inside l' member')
      rw [here, there]
      exact congrArg some ((alike l member l' member' _ _ _ here there).mp keys)
  have head : ∀ e ∈ grouped toLowercase options index groups, e.2.headD [] ∈ groups ∧
      groupKey toLowercase options ((e.2.headD []).getD index []) = e.1 :=
    fun e listed => (group_members listed).1 _ (group_members listed).2
  refine Covers.regroup (fun e listed => ?_) (fun l member => ?_) (fun e listed t member => ?_) ?_ below
  · exact ⟨_, (head e listed).1, inside _ (head e listed).1, rfl⟩
  · have listed : (⟨groupKey toLowercase options (l.getD index []), groups.filter fun group =>
        decide (groupKey toLowercase options (group.getD index []) = groupKey toLowercase options (l.getD index []))⟩ :
          Text × List (List Text)) ∈ grouped toLowercase options index groups :=
      (mem_grouped _).mpr ⟨mem_map.mpr ⟨l, member, rfl⟩, rfl⟩
    refine ⟨_, listed, mem_map.mpr ⟨l, mem_filter.mpr ⟨member, by simp⟩, rfl⟩, ?_⟩
    exact same l member _ (head _ listed).1 (head _ listed).2.symm
  · obtain ⟨l, inside_, rfl⟩ := mem_map.mp member
    obtain ⟨known, key⟩ := (group_members listed).1 l inside_
    exact ⟨l, known, rfl, same l known _ (head e listed).1 (key.trans (head e listed).2.symm)⟩
  refine (grouped_distinct index groups).imp_of_mem fun {e e'} listed listed' differ keys => differ ?_
  have at_ := congrArg (fun l : List Text => l[index]?) keys
  simp only [List.getElem?_map, List.getElem?_take_of_lt (Nat.lt_succ_self index)] at at_
  have here := getElem?_getD (inside _ (head e listed).1)
  have there := getElem?_getD (inside _ (head e' listed').1)
  rw [here, there] at at_
  have equal := (alike _ (head e listed).1 _ (head e' listed').1 index _ _ here there).mpr (Option.some.inj at_)
  exact (head e listed).2.symm.trans (equal.trans (head e' listed').2)

theorem getCommonParentsWorker_covers : ∀ (fuel : Nat) (groups : List (List Text)) (minComponents : Nat), minComponents < fuel →
    ∃ found, getCommonParentsWorker toLowercase options fuel groups minComponents = .ok found ∧
      ((∀ l ∈ groups, minComponents ≤ l.length) → GroupsAlike toLowercase options groups →
        Covers (options.key toLowercase) minComponents groups found) := by
  intro fuel
  induction fuel with
  | zero => exact fun groups minComponents enough => absurd enough (Nat.not_lt_zero _)
  | succ fuel ih =>
    intro groups minComponents enough
    cases groups with
    | nil => exact ⟨[], rfl, fun _ _ => Covers.nil⟩
    | cons first others =>
      unfold getCommonParentsWorker
      dsimp only
      have depth := fun bound => le_foldl_min bound first.length others
      generalize others.foldl (fun depth components => min depth components.length) first.length = maxDepth at depth
      have inside : ∀ l ∈ first :: others, maxDepth ≤ l.length := forall_mem_cons.mpr ((depth maxDepth).mp (Nat.le_refl _))
      cases difference : firstDifference toLowercase options first others maxDepth with
      | none =>
        refine ⟨_, rfl, fun long _ => ?_⟩
        have deep : minComponents ≤ maxDepth := (depth minComponents).mpr (forall_mem_cons.mp long)
        exact Covers.common (mem_cons_self) (inside first mem_cons_self) deep (firstDifference_none inside difference)
      | some index =>
        obtain ⟨short, agree⟩ := firstDifference_some inside difference
        dsimp only
        by_cases within : index < minComponents
        · rw [if_pos within]
          have each := fun e : Text × List (List Text) =>
            ih (e.2.map (List.drop (index + 1))) (minComponents - (index + 1)) (by omega)
          choose found returned covers using each
          have results : ∀ e ∈ grouped toLowercase options index (first :: others), (do
              let rest ← subtract minComponents (index + 1)
              let subResults ← getCommonParentsWorker toLowercase options fuel (e.2.map (List.drop (index + 1))) rest
              pure (subResults.map ((e.2.headD []).take (index + 1) ++ ·))) =
                Outcome.ok ((found e).map ((e.2.headD []).take (index + 1) ++ ·)) := by
            intro e _
            rw [subtract, if_neg (Nat.not_lt.mpr within), Outcome.monad_bind, Outcome.bind_ok, returned e]
            rfl
          rw [Outcome.mapM_eq_ok results]
          refine ⟨_, rfl, fun long alike => ?_⟩
          refine covers_grouped alike (fun l member => short.trans_le (inside l member)) (fun l member l' member' i before => ?_)
            fun e listed => ?_
          · exact (agree l member i before).symm.trans (agree l' member' i before)
          have known := fun l member => ((group_members listed).1 l member).1
          refine covers e (fun t member => ?_) (alike.drop _ known)
          obtain ⟨l, inside_, rfl⟩ := mem_map.mp member
          rw [length_drop]
          exact Nat.sub_le_sub_right (long l (known l inside_)) _
        · rw [if_neg within]
          refine ⟨_, rfl, fun _ _ => ?_⟩
          exact Covers.common mem_cons_self (short.le.trans (inside first mem_cons_self)) (Nat.le_of_not_lt within) agree
end

section
variable {toLowercase : Char → Text} {options : ComparePathsOptions} {path root name name' directory : Text}
variable {front front' part part' : Text}

def IsFront (front : Text) : Prop := front = [] ∨ front.getLast? = some '/'

theorem append_free (whole : front ++ part = front' ++ part') (closed : IsFront front)
    (free : '/' ∉ part') : ∃ gap, front' = front ++ gap ∧ part = gap ++ part' := by
  rcases append_eq_append_iff.mp whole with ⟨gap, shape, rest⟩ | ⟨gap, shape, rest⟩
  · exact ⟨gap, shape, rest⟩
  have nothing : gap = [] := by
    by_contra some_
    rcases closed with none | last
    · rw [none] at shape
      exact some_ (append_eq_nil_iff.mp shape.symm).2
    · rw [shape, List.getLast?_append_of_ne_nil _ some_] at last
      exact free (by rw [rest]; exact mem_append_left _ (mem_of_getLast? last))
  rw [nothing, append_nil] at shape
  rw [nothing, nil_append] at rest
  exact ⟨[], by rw [shape, append_nil], by rw [rest, nil_append]⟩

theorem last_unique (whole : front ++ part = front' ++ part') (closed : IsFront front)
    (closed' : IsFront front') (free : '/' ∉ part) (free' : '/' ∉ part') : part = part' := by
  obtain ⟨gap, -, shape⟩ := append_free whole closed free'
  obtain ⟨gap', -, shape'⟩ := append_free whole.symm closed' free
  have long := congrArg List.length shape
  have long' := congrArg List.length shape'
  rw [length_append] at long long'
  have nothing : gap = [] := eq_nil_of_length_eq_zero (by omega)
  rw [shape, nothing, nil_append]

theorem normalized_name (slashed : Slashed directory) (closed : directory.getLast? = some '/')
    (regular : Proper name ∧ name ≠ ['.', '.']) : ∃ front, IsFront front ∧ normalized (directory ++ name) = front ++ name := by
  have slashed' : Slashed (directory ++ name) := by
    unfold Slashed
    rw [mem_append]
    exact fun either => either.elim slashed regular.1.slashed
  have below : IsFront (rootOf (directory ++ name)) → ∃ front, IsFront front ∧ normalized (directory ++ name) = front ++ name := by
    intro rootClosed
    obtain ⟨middle, shape, rest⟩ := append_free (rootOf_append_afterRoot (directory ++ name)) rootClosed regular.1.free
    obtain ⟨before, same⟩ : ∃ before, reducedOf (directory ++ name) = before ++ [name] := by
      have last (before : List Text) : reduceText (rootOf (directory ++ name)) before name = before ++ [name] := by
        have alone : ∀ c ∈ [name], Proper c ∧ c ≠ ['.', '.'] := by simpa using regular
        rw [reduceText_free regular.1.free]
        exact foldl_regular _ before alone
      unfold reducedOf
      rw [rest]
      by_cases none : middle = []
      · exact ⟨[], by rw [none, nil_append, last]⟩
      have slash : middle.getLast? = some '/' := by
        rw [← List.getLast?_append_of_ne_nil (rootOf (directory ++ name)) none, ← shape]
        exact closed
      rw [← dropLast_append_getLast? _ slash, append_assoc, singleton_append, reduceText_append, last]
      exact ⟨_, rfl⟩
    refine ⟨rootOf (directory ++ name) ++ lead before, ?_, by rw [normalized, same, join_concat, append_assoc]⟩
    unfold lead
    split
    · rw [append_nil]
      exact rootClosed
    · rw [← append_assoc]
      exact .inr List.getLast?_concat
  rcases rootOf_trailing slashed' with none | whole | slash
  · exact below (.inl none)
  · exact ⟨directory, .inr closed, normalized_eq_nil_root whole⟩
  · exact below (.inr slash)

theorem isRootedDiskPath_unrooted (none : rootOf path = []) : isRootedDiskPath path = false := by
  unfold isRootedDiskPath getEncodedRootLength
  rw [none, bytes_nil]
  split <;> decide

theorem groupKey_root (slashed : Slashed root) (bare : rootOf root = root) (some_ : root ≠ []) :
    groupKey toLowercase options root = options.key toLowercase root := by
  have rooted : rootOf root ≠ [] := by rwa [bare]
  have disk : normalizePath root = root := by
    rw [normalizePath_byComponents rooted, normalizeSlashes_of_slashed slashed, normalizeByComponents_eq slashed,
      normalized_eq_nil_root bare, Bool.and_not_self, if_neg Bool.false_ne_true]
  have other : getNormalizedAbsolutePath root options.currentDirectory = root := by
    rw [getNormalizedAbsolutePath_eq, absoluteFileName, getRootLength_eq, if_neg fun both => (bytes_pos rooted).ne' both.1,
      normalizeSlashes_of_slashed slashed, normalized_eq_nil_root bare]
  unfold groupKey toPath
  rw [disk, other, ite_self]

theorem groupKey_name (regular : Proper name ∧ name ≠ ['.', '.']) : ∃ front, IsFront front ∧
    groupKey toLowercase options name = options.key toLowercase (front ++ name) := by
  by_cases drive : IsDrive name
  · exact ⟨[], .inl rfl, groupKey_root regular.1.slashed (rootOf_drive drive) regular.1.filled⟩
  have alone : ∀ c ∈ [name], Proper c ∧ c ≠ ['.', '.'] := by simpa using regular
  have shape : join [name] = name := intercalate_singleton
  have unrooted : rootOf name = [] := by
    have none := rootOf_join (fun c listed => (alone c listed).1) (fun like => like.elim drive fun caret => caret.2 rfl)
    rwa [shape] at none
  have found : ∃ front, IsFront front ∧ getNormalizedAbsolutePath name options.currentDirectory = front ++ name := by
    rw [getNormalizedAbsolutePath_eq, absoluteFileName, getRootLength_eq, unrooted, bytes_nil]
    by_cases nowhere : options.currentDirectory = []
    · rw [if_neg fun both => both.2 nowhere, normalizeSlashes_of_slashed regular.1.slashed]
      refine ⟨[], .inl rfl, ?_⟩
      have same := @normalized_regular [] [name] alone (by rw [shape]; exact unrooted)
      rwa [shape] at same
    rw [if_pos ⟨rfl, nowhere⟩]
    have slashed := slashed_normalizeSlashes options.currentDirectory
    have some_ : normalizeSlashes options.currentDirectory ≠ [] := fun none => nowhere (map_eq_nil_iff.mp none)
    unfold combinePaths
    rw [foldl_cons, foldl_nil, combineOne, if_neg regular.1.filled]
    dsimp only
    rw [normalizeSlashes_of_slashed regular.1.slashed, getRootLength_eq, unrooted, bytes_nil,
      if_neg (by simpa using some_)]
    split
    · rename_i trailing
      exact normalized_name slashed ((trailing_iff slashed).mp trailing) regular
    have slashed' : Slashed (normalizeSlashes options.currentDirectory ++ ['/']) := by
      unfold Slashed
      rw [mem_append]
      exact fun either => either.elim slashed (by decide)
    exact normalized_name slashed' List.getLast?_concat regular
  obtain ⟨front, closed, same⟩ := found
  refine ⟨front, closed, ?_⟩
  unfold groupKey toPath
  rw [isRootedDiskPath_unrooted unrooted, if_neg Bool.false_ne_true, same]

theorem key_front (table : LowersCase toLowercase) (closed : IsFront front) :
    IsFront (front.flatMap (options.keyOf toLowercase)) := by
  rcases closed with rfl | last
  · exact .inl rfl
  · obtain ⟨before, rfl⟩ : ∃ before, front = before ++ ['/'] := ⟨_, (dropLast_append_getLast? _ last).symm⟩
    rw [flatMap_append, flatMap_singleton, keyOf_separator table]
    exact .inr List.getLast?_concat

theorem key_free (table : LowersCase toLowercase) (free : '/' ∉ name) : '/' ∉ name.flatMap (options.keyOf toLowercase) := by
  rw [mem_flatMap]
  rintro ⟨c, listed, slash⟩
  exact keyOf_free table c (fun same => free (same ▸ listed)) slash

theorem key_of_groupKey (table : LowersCase toLowercase) (regular : Proper name ∧ name ≠ ['.', '.'])
    (regular' : Proper name' ∧ name' ≠ ['.', '.']) (same : groupKey toLowercase options name = groupKey toLowercase options name') :
    options.key toLowercase name = options.key toLowercase name' := by
  obtain ⟨front, closed, shape⟩ := @groupKey_name toLowercase options name regular
  obtain ⟨front', closed', shape'⟩ := @groupKey_name toLowercase options name' regular'
  rw [shape, shape', key_eq table, key_eq table, flatMap_append, flatMap_append] at same
  rw [key_eq table, key_eq table]
  exact last_unique same (key_front table closed) (key_front table closed') (key_free table regular.1.free)
    (key_free table regular'.1.free)
end

section
variable {toLowercase : Char → Text} {options : ComparePathsOptions} {path root parent child : Text} {names names' : List Text}

theorem componentsAgree_iff (index : Nat) (names names' : List Text) :
    (names.length ≤ names'.length ∧ ((names.zip names').zipIdx (index + 1)).all (componentsAgree toLowercase options) = true) ↔
      Begins (options.key toLowercase) names names' := by
  unfold Begins
  induction names generalizing names' index with
  | nil => simp
  | cons name names ih =>
    cases names' with
    | nil => simp
    | cons name' names' =>
      have here : componentsAgree toLowercase options ((name, name'), index + 1) = options.equalStrings toLowercase name name' :=
        if_neg (Nat.succ_ne_zero index)
      rw [zip_cons_cons, zipIdx_cons, all_cons, here, equalStrings_eq, Bool.and_eq_true, decide_eq_true_eq,
        map_cons, map_cons, cons_prefix_cons, ← ih (index + 1) names', length_cons, length_cons,
        Nat.succ_le_succ_iff]
      exact and_left_comm

def combined (options : ComparePathsOptions) (path : Text) : Text := combinePaths options.currentDirectory [path]

theorem slashed_combined (path : Text) : Slashed (combined options path) := slashed_combineOne (slashed_normalizeSlashes _)

theorem reducedComponents_eq (path : Text) :
    reducedComponents options path = rootOf (combined options path) :: reducedOf (combined options path) :=
  reducePathComponents_pathComponents _

theorem containsPath_iff (rooted : rootOf (combined options parent) ≠ []) (rooted' : rootOf (combined options child) ≠ []) :
    containsPath toLowercase options parent child = true ↔ combined options parent = combined options child ∨
      (toFileNameLowerCase toLowercase (rootOf (combined options parent)) =
        toFileNameLowerCase toLowercase (rootOf (combined options child)) ∧
      Begins (options.key toLowercase) (reducedOf (combined options parent)) (reducedOf (combined options child))) := by
  have filled {path : Text} (rooted : rootOf path ≠ []) : path ≠ [] := by
    rintro rfl
    exact rooted rfl
  have slashed := @slashed_combined options parent
  have slashed' := @slashed_combined options child
  have behind (path : Text) : combinePaths options.currentDirectory [path] = combined options path := rfl
  unfold containsPath
  dsimp only
  rw [behind, behind, if_neg (by simpa using ⟨filled rooted, filled rooted'⟩)]
  generalize combined options parent = parent at rooted slashed
  generalize combined options child = child at rooted' slashed'
  by_cases same : parent = child
  · rw [if_pos same]
    exact iff_of_true rfl (.inl same)
  rw [if_neg same, reducedComponents_rooted rooted, reducedComponents_rooted rooted', normalizeSlashes_of_slashed slashed,
    normalizeSlashes_of_slashed slashed', zip_cons_cons, zipIdx_cons, all_cons, Bool.and_eq_true,
    Bool.and_eq_true, length_cons, length_cons, decide_eq_true_eq, Nat.succ_le_succ_iff, and_left_comm,
    componentsAgree_iff 0]
  have first : componentsAgree toLowercase options ((rootOf parent, rootOf child), 0) = true ↔
      toFileNameLowerCase toLowercase (rootOf parent) = toFileNameLowerCase toLowercase (rootOf child) := by
    unfold componentsAgree
    rw [if_pos rfl, decide_eq_true_eq]
  rw [first]
  exact ⟨.inr, fun either => either.resolve_left same⟩

theorem equalStrings_comm (a b : Text) : options.equalStrings toLowercase a b = options.equalStrings toLowercase b a := by
  rw [equalStrings_eq, equalStrings_eq]
  exact decide_eq_decide.mpr eq_comm

variable (rooted : rootOf (combined options parent) ≠ []) (rooted' : rootOf (combined options child) ≠ [])
include rooted rooted'

theorem containsPath_of_begins (begins : Begins (options.key toLowercase) (reducedComponents options parent) (reducedComponents options child)) :
    containsPath toLowercase options parent child = true := by
  rw [reducedComponents_eq, reducedComponents_eq, begins_cons] at begins
  refine (containsPath_iff rooted rooted').mpr (.inr ⟨?_, begins.2⟩)
  have same := begins.1
  unfold ComparePathsOptions.key getCanonicalFileName at same
  split at same
  · rw [same]
  · exact same

theorem begins_of_containsPath (same : options.equalStrings toLowercase (rootOf (combined options parent)) (rootOf (combined options child)) = true)
    (contains : containsPath toLowercase options parent child = true) :
    Begins (options.key toLowercase) (reducedComponents options parent) (reducedComponents options child) := by
  rw [equalStrings_eq, decide_eq_true_eq] at same
  rw [reducedComponents_eq, reducedComponents_eq, begins_cons]
  refine ⟨same, ?_⟩
  rcases (containsPath_iff rooted rooted').mp contains with equal | ⟨-, begins⟩
  · rw [equal]
    exact prefix_refl _
  · exact begins
end

variable {toLowercase : Char → Text} {options : ComparePathsOptions} {path root : Text} {names kept : List Text}
variable {least : Nat} {paths : List Text}

theorem rootOf_rootOf (slashed : Slashed path) (rooted : rootOf path ≠ []) : rootOf (rootOf path) = rootOf path := by
  have whole := rootOf_append_afterRoot path
  by_cases bare : afterRoot path = []
  · rw [bare, append_nil] at whole
    rw [whole]
    exact whole
  · have again := rootOf_extend slashed rooted bare [] (fun _ => by simp)
    have nothing : rootExtension (rootOf path) [] = [] := ite_self _
    rwa [nothing, append_nil] at again

theorem rootOf_names (slashed : Slashed root) (rooted : root ≠ []) (bare : rootOf root = root) (proper : ∀ c ∈ names, Proper c)
    (stays : ∀ name, names[0]? = some name → rootOf (root ++ name) = root) : rootOf (root ++ join names) = root := by
  cases names with
  | nil =>
    have empty : join [] = [] := rfl
    rw [empty, append_nil, bare]
  | cons name names =>
    have same := stays name rfl
    have here := proper name (by simp)
    by_cases none : names = []
    · have single : join [name] = name := intercalate_singleton
      rw [none, single, same]
    have posix (rest : Text) : root = ['/'] → (name ++ rest).head? ≠ some '/' := by
      intro _ slash
      rw [List.head?_append_of_ne_nil _ here.filled] at slash
      exact here.free (mem_of_head? slash)
    have closed := rootOf_append same rooted here.filled slashed (name ++ []) (posix [])
    rw [append_nil, same, self_eq_append_right] at closed
    have more : rootExtension root (name ++ '/' :: join names) = [] := by
      unfold rootExtension at closed ⊢
      split
      · rename_i base
        rw [if_pos base] at closed
        exact fileUrlVolume_more _ closed (.inl rfl)
      · rfl
    rw [join_cons name none, rootOf_append same rooted here.filled slashed _ (posix _), more, append_nil]

theorem combined_written (slashed : Slashed root) (closed : root.getLast? = some '/') (bare : rootOf root = root)
    (regular : ∀ c ∈ names, Proper c ∧ c ≠ ['.', '.']) (stays : ∀ name, names[0]? = some name → rootOf (root ++ name) = root) :
    rootOf (combined options (getPathFromPathComponents (root :: names))) = root ∧
      reducedComponents options (getPathFromPathComponents (root :: names)) = root :: names := by
  have rooted : root ≠ [] := by
    rintro rfl
    cases closed
  have proper : ∀ c ∈ names, Proper c := fun c listed => (regular c listed).1
  have text : getPathFromPathComponents (root :: names) = root ++ join names := by
    rw [getPathFromPathComponents, if_pos rooted]
    exact congrArg (· ++ join names) (if_pos (hasTrailingDirectorySeparator_of_getLast closed))
  have same := rootOf_names slashed rooted bare proper stays
  have plain : Slashed (root ++ join names) := by
    unfold Slashed
    rw [mem_append]
    exact fun either => either.elim slashed (slashed_join proper)
  have whole : combined options (root ++ join names) = root ++ join names := by
    unfold combined
    rw [combinePaths_rooted (by rwa [same]), normalizeSlashes_of_slashed plain]
  rw [reducedComponents_eq, text, whole, reducedOf, same, afterRoot_eq same, reduceText_join _ _ proper,
    foldl_regular _ _ regular, nil_append]
  exact ⟨rfl, rfl⟩

theorem slashed_root (path : Text) : Slashed (rootOf (combined options path)) := slashed_rootOf (slashed_combined path)

/-- What it takes for parents to be read as they were written: a root ends with a separator, stays the root in front of the
first name below any root like it, and components that are compared as equal have one key. -/
structure Readable (toLowercase : Char → Text) (options : ComparePathsOptions) (paths : List Text) : Prop where
  closed : ∀ p ∈ paths, (rootOf (combined options p)).getLast? = some '/'
  stays : ∀ p ∈ paths, ∀ q ∈ paths,
    options.equalStrings toLowercase (rootOf (combined options p)) (rootOf (combined options q)) = true →
      ∀ name, (reducedComponents options q)[1]? = some name → rootOf (rootOf (combined options p) ++ name) = rootOf (combined options p)
  alike : ∀ p ∈ paths, ∀ q ∈ paths, ∀ (place : Nat) (a b : Text), (reducedComponents options p)[place]? = some a →
    (reducedComponents options q)[place]? = some b → options.equalStrings toLowercase a b = true →
      groupKey toLowercase options a = groupKey toLowercase options b

namespace Readable

variable (readable : Readable toLowercase options kept)
include readable

theorem rooted (known : path ∈ kept) : rootOf (combined options path) ≠ [] := by
  intro none
  have last := readable.closed path known
  rw [none] at last
  cases last

theorem bare_root (known : path ∈ kept) : rootOf (rootOf (combined options path)) = rootOf (combined options path) :=
  rootOf_rootOf (slashed_combined path) (readable.rooted known)

theorem regular (known : path ∈ kept) : ∀ c ∈ reducedOf (combined options path), Proper c ∧ c ≠ ['.', '.'] :=
  regular_reducedOf (slashed_combined path) (readable.rooted known) (nil_append _).symm

theorem groupsAlike (table : LowersCase toLowercase) : GroupsAlike toLowercase options (kept.map (reducedComponents options)) := by
  intro l member l' member' place a b here there
  obtain ⟨p, known, rfl⟩ := mem_map.mp member
  obtain ⟨q, known', rfl⟩ := mem_map.mp member'
  constructor
  · intro same
    rw [reducedComponents_eq] at here there
    cases place with
    | zero =>
      cases here
      cases there
      rwa [groupKey_root (slashed_root p) (readable.bare_root known) (readable.rooted known),
        groupKey_root (slashed_root q) (readable.bare_root known') (readable.rooted known')] at same
    | succ place =>
      rw [List.getElem?_cons_succ] at here there
      exact key_of_groupKey table (readable.regular known a (mem_of_getElem? here))
        (readable.regular known' b (mem_of_getElem? there)) same
  · intro same
    refine readable.alike p known q known' place a b here there ?_
    rw [equalStrings_eq, decide_eq_true_eq]
    exact same

theorem written {least : Nat} {found : List (List Text)} (some_ : 1 ≤ least)
    (covers : Covers (options.key toLowercase) least (kept.map (reducedComponents options)) found) {components : List Text}
    (member : components ∈ found) : rootOf (combined options (getPathFromPathComponents components)) ≠ [] ∧
      reducedComponents options (getPathFromPathComponents components) = components := by
  have long := covers.long components member
  cases components with
  | nil => exact absurd (some_.trans long) (by decide)
  | cons root names =>
    obtain ⟨l, listed, first, -⟩ := covers.drawn _ member 0 root rfl
    obtain ⟨p, known, rfl⟩ := mem_map.mp listed
    rw [reducedComponents_eq] at first
    cases first
    have regular : ∀ c ∈ names, Proper c ∧ c ≠ ['.', '.'] := by
      intro c inside
      obtain ⟨place, here⟩ := mem_iff_getElem?.mp inside
      obtain ⟨l, listed, there, -⟩ := covers.drawn _ member (place + 1) c here
      obtain ⟨q, known', rfl⟩ := mem_map.mp listed
      rw [reducedComponents_eq, List.getElem?_cons_succ] at there
      exact readable.regular known' c (mem_of_getElem? there)
    have stays : ∀ name, names[0]? = some name → rootOf (rootOf (combined options p) ++ name) = rootOf (combined options p) := by
      intro name here
      obtain ⟨l, listed, there, begins⟩ := covers.drawn _ member 1 name here
      obtain ⟨q, known', rfl⟩ := mem_map.mp listed
      refine readable.stays p known q known' ?_ name there
      rw [equalStrings_eq, decide_eq_true_eq]
      rw [reducedComponents_eq, take_succ_cons, begins_cons] at begins
      exact begins.1
    obtain ⟨root, same⟩ := @combined_written options _ _ (slashed_root p) (readable.closed p known)
      (readable.bare_root known) regular stays
    exact ⟨by rw [root]; exact readable.rooted known, same⟩

end Readable

/-- What parents are for: a path that is not ignored is in one of them, each has enough components, and none with the root of
another one is in it. -/
structure Divides (toLowercase : Char → Text) (options : ComparePathsOptions) (minComponents : Nat) (paths parents : List Text)
    (ignored : Finset Text) : Prop where
  covered : ∀ path ∈ paths, path ∉ ignored → ∃ parent ∈ parents, containsPath toLowercase options parent path = true
  long : ∀ parent ∈ parents, minComponents ≤ (reducedComponents options parent).length
  apart : parents.Pairwise fun parent parent' =>
    options.equalStrings toLowercase (rootOf (combined options parent)) (rootOf (combined options parent')) = true →
      containsPath toLowercase options parent parent' = false ∧ containsPath toLowercase options parent' parent = false

theorem Readable.divides (readable : Readable toLowercase options kept) {found : List (List Text)}
    {ignored : Finset Text} (some_ : 1 ≤ least)
    (covers : Covers (options.key toLowercase) least (kept.map (reducedComponents options)) found)
    (left : ∀ path ∈ paths, path ∉ ignored → path ∈ kept) :
    Divides toLowercase options least paths (found.map getPathFromPathComponents) ignored := by
  refine ⟨fun path listed not_ignored => ?_, fun parent member => ?_, ?_⟩
  · have known := left path listed not_ignored
    obtain ⟨components, member, begins⟩ := covers.covered _ (mem_map_of_mem known)
    obtain ⟨rooted, same⟩ := readable.written some_ covers member
    refine ⟨_, mem_map_of_mem member, containsPath_of_begins rooted (readable.rooted known) ?_⟩
    rw [same]
    exact begins
  · obtain ⟨components, inside, rfl⟩ := mem_map.mp member
    rw [(readable.written some_ covers inside).2]
    exact covers.long components inside
  rw [pairwise_map]
  refine covers.apart.imp_of_mem fun {c c'} member member' apart same => ?_
  obtain ⟨rooted, written⟩ := readable.written some_ covers member
  obtain ⟨rooted', written'⟩ := readable.written some_ covers member'
  refine ⟨Bool.eq_false_iff.mpr fun contains => apart.1 ?_, Bool.eq_false_iff.mpr fun contains => apart.2 ?_⟩
  · have begins := begins_of_containsPath rooted rooted' same contains
    rwa [written, written'] at begins
  · rw [equalStrings_comm] at same
    have begins := begins_of_containsPath rooted' rooted same contains
    rwa [written, written'] at begins

theorem mem_kept : path ∈ paths.filter (fun path => decide (least ≤ (reducedComponents options path).length)) ↔
      path ∈ paths ∧ least ≤ (reducedComponents options path).length := by
  rw [mem_filter, decide_eq_true_eq]

theorem divides_alone (rooted : rootOf (combined options path) ≠ [])
    (long : least ≤ (reducedComponents options path).length) (ignored : Finset Text) :
    Divides toLowercase options least [path] [path] ignored := by
  refine ⟨fun p listed _ => ⟨path, mem_singleton_self path, ?_⟩, fun p listed => ?_, pairwise_singleton _ _⟩
  · rw [mem_singleton.mp listed]
    exact containsPath_of_begins rooted rooted (prefix_refl _)
  · rw [mem_singleton.mp listed]
    exact long

/-- The parents of paths are always found. Those of paths that are read as they are written divide the paths that are not
ignored. -/
theorem getCommonParents_divides (table : LowersCase toLowercase) (options : ComparePathsOptions) (paths : List Text)
    {minComponents : Nat} (least : 1 ≤ minComponents) : ∃ parents ignored,
    getCommonParents toLowercase options paths minComponents = .ok (parents, ignored) ∧
    (∀ path, path ∈ ignored ↔ path ∈ paths ∧ (reducedComponents options path).length < minComponents) ∧
    (Readable toLowercase options (paths.filter fun path => minComponents ≤ (reducedComponents options path).length) →
      Divides toLowercase options minComponents paths parents ignored) := by
  unfold getCommonParents
  rw [if_neg (Nat.not_lt.mpr least)]
  rcases paths with none | ⟨path, none | ⟨second, rest⟩⟩
  · exact ⟨[], ∅, rfl, by simp, fun _ => ⟨by simp, by simp, List.Pairwise.nil⟩⟩
  · dsimp only
    by_cases short : (reducedComponents options path).length < minComponents
    · rw [if_pos short]
      refine ⟨[], {path}, rfl, fun p => ?_, fun _ => ⟨by simp, by simp, List.Pairwise.nil⟩⟩
      rw [Finset.mem_singleton, mem_singleton]
      exact ⟨fun same => ⟨same, same ▸ short⟩, fun both => both.1⟩
    rw [if_neg short]
    refine ⟨[path], ∅, rfl, fun p => ?_, fun readable => ?_⟩
    · rw [mem_singleton]
      exact iff_of_false (Finset.notMem_empty p) fun both => short (both.1 ▸ both.2)
    · have long := Nat.le_of_not_lt short
      exact divides_alone (readable.rooted (mem_kept.mpr ⟨mem_singleton_self path, long⟩)) long ∅
  dsimp only
  generalize path :: second :: rest = paths
  have groups : (paths.map (reducedComponents options)).filter (fun components => decide ¬components.length < minComponents) =
      (paths.filter fun path => minComponents ≤ (reducedComponents options path).length).map (reducedComponents options) := by
    rw [filter_map]
    refine congrArg _ (filter_congr fun path _ => ?_)
    exact decide_eq_decide.mpr Nat.not_lt
  rw [groups]
  obtain ⟨found, returned, covers⟩ := @getCommonParentsWorker_covers toLowercase options (minComponents + 1)
    ((paths.filter fun path => minComponents ≤ (reducedComponents options path).length).map (reducedComponents options))
    minComponents (Nat.lt_succ_self _)
  rw [returned]
  refine ⟨_, _, rfl, fun path => ?_, fun readable => ?_⟩
  · rw [mem_toFinset, mem_filter, decide_eq_true_eq]
  refine readable.divides least (covers (fun l member => ?_) (readable.groupsAlike table)) fun path listed kept => ?_
  · obtain ⟨path, known, rfl⟩ := mem_map.mp member
    exact (mem_kept.mp known).2
  · refine mem_kept.mpr ⟨listed, Nat.le_of_not_lt fun short => kept ?_⟩
    rw [mem_toFinset, mem_filter, decide_eq_true_eq]
    exact ⟨listed, short⟩

theorem getCommonParents_divides_four : let paths := ["/a/b/c".toList, "/a/b/d".toList, "/x".toList]
    getCommonParents (fun c => [c.toLower]) ⟨true, []⟩ paths 4 = .ok (["/a/b/c".toList, "/a/b/d".toList], {"/x".toList}) ∧
      Divides (fun c => [c.toLower]) ⟨true, []⟩ 4 paths ["/a/b/c".toList, "/a/b/d".toList] {"/x".toList} := by
  have known : getCommonParents (fun c => [c.toLower]) ⟨true, []⟩ ["/a/b/c".toList, "/a/b/d".toList, "/x".toList] 4 =
      .ok (["/a/b/c".toList, "/a/b/d".toList], {"/x".toList}) := by decide
  have first : ∀ p ∈ ["/a/b/c".toList, "/a/b/d".toList], (reducedComponents ⟨true, []⟩ p)[1]? = some ['a'] := by decide
  have stays : ∀ p ∈ ["/a/b/c".toList, "/a/b/d".toList],
      rootOf (rootOf (combined ⟨true, []⟩ p) ++ ['a']) = rootOf (combined ⟨true, []⟩ p) := by decide
  have readable : Readable (fun c => [c.toLower]) ⟨true, []⟩ ["/a/b/c".toList, "/a/b/d".toList] := by
    refine ⟨by decide, fun p listed q listed' _ name here => ?_, fun p _ q _ place a b _ _ same => ?_⟩
    · rw [first q listed'] at here
      cases here
      exact stays p listed
    · rw [of_decide_eq_true same]
  obtain ⟨parents, ignored, returned, -, divides⟩ :=
    getCommonParents_divides lowersCase_ascii ⟨true, []⟩ ["/a/b/c".toList, "/a/b/d".toList, "/x".toList] (by decide : 1 ≤ 4)
  cases returned
  exact ⟨known, divides readable⟩

/-- Without a minimum the call aborts. An empty parent contains nothing, one below a relative directory is put behind it twice,
a bare root gets a separator, and a volume becomes a part of the root; roots that differ in case contain each other, and so do
names that are compared as equal but have two keys. -/
theorem getCommonParents_exceptions :
    let parents (lower : Char → Text) (sensitive : Bool) (directory : String) (paths : List String) (least : Nat) :=
      getCommonParents lower ⟨sensitive, directory.toList⟩ (paths.map String.toList) least
    let contains (lower : Char → Text) (sensitive : Bool) (directory parent child : String) :=
      containsPath lower ⟨sensitive, directory.toList⟩ parent.toList child.toList
    let ascii : Char → Text := fun c => [c.toLower]
    let kelvin : Char → Text := fun c => if c = Char.ofNat 0x212A then ['k'] else [c.toLower]
    parents ascii true "" ["/a", "/b"] 0 = .panic "minComponents must be at least 1" ∧
    (parents ascii true "" ["a", "b"] 1 = .ok ([[]], ∅) ∧ contains ascii true "" "" "a" = false) ∧
    (parents ascii true "x" ["a/b", "a/c"] 1 = .ok (["x/a".toList], ∅) ∧ contains ascii true "x" "x/a" "a/b" = false) ∧
    (parents ascii true "" ["c:", "/a"] 1 = .ok (["/a".toList, "c:/".toList], ∅) ∧ contains ascii true "" "c:/" "c:" = false) ∧
    (parents ascii true "" ["file:///x/../c:/a", "file:///x/../c:/b"] 1 = .ok (["file:///c:".toList], ∅) ∧
      contains ascii true "" "file:///c:" "file:///x/../c:/a" = false) ∧
    (parents ascii true "" ["C:/a", "c:/a"] 1 = .ok (["C:/a".toList, "c:/a".toList], ∅) ∧
      contains ascii true "" "C:/a" "c:/a" = true) ∧
    (parents kelvin false "/" ["/k:/a", "/\u212A:/a", "/x/a"] 2 = .ok (["/\u212A:/a".toList, "/x/a".toList, "/k:/a".toList], ∅) ∧
      contains kelvin false "/" "/\u212A:/a" "/k:/a" = true) := by
  refine ⟨by decide, ⟨by decide, by decide⟩, ⟨by decide, by decide⟩, ⟨by decide, by decide⟩, ⟨by decide, by decide⟩,
    ⟨by decide, by decide⟩, by decide, by decide⟩

end TypeScriptRs.Paths
