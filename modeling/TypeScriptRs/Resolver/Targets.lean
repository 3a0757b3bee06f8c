import TypeScriptRs.Paths.Rebasing
import TypeScriptRs.Resolver.Keys

/-! The files that targets with `./` name, and whether they lie in the package. -/
namespace TypeScriptRs.Resolver
open Utf8 Machine Paths List

section
variable {root : Text}

theorem reduceStep_skip {component : Text} (skip : component = [] ∨ component = ['.']) (reduced : List Text) :
    reduceStep root reduced component = reduced := if_pos skip

theorem reduceStep_push {component : Text} (skip : ¬(component = [] ∨ component = ['.'])) (other : component ≠ ['.', '.'])
    (reduced : List Text) : reduceStep root reduced component = reduced ++ [component] := by
  unfold reduceStep
  rw [if_neg skip, if_neg other]

theorem reduceStep_pop {last : Text} (other : last ≠ ['.', '.']) (front : List Text) :
    reduceStep root (front ++ [last]) ['.', '.'] = front := by
  unfold reduceStep
  rw [if_neg (by decide), if_pos rfl, if_pos ⟨by simp, by simpa using other⟩, dropLast_concat]

theorem reduceStep_climb (up : Nat) : reduceStep [] (List.replicate up ['.', '.']) ['.', '.'] = List.replicate (up + 1) ['.', '.'] := by
  unfold reduceStep
  rw [if_neg (by decide), if_pos rfl, if_neg, if_neg (fun both => both.2 rfl), replicate_succ']
  intro both
  obtain ⟨n, rfl⟩ := Nat.exists_eq_succ_of_ne_zero (fun none : up = 0 => both.1 (by rw [none]; rfl))
  exact both.2 (by rw [replicate_succ', List.getLast?_concat])

theorem reduceStep_stay (rooted : root ≠ []) : reduceStep root [] ['.', '.'] = [] := by
  unfold reduceStep
  rw [if_neg (by decide), if_pos rfl, if_neg (fun both => both.1 rfl), if_pos ⟨rfl, rooted⟩]

theorem foldl_climbs (rooted : root ≠ []) {above : List Text} (low : ['.', '.'] ∉ above) (components : List Text) :
    ∃ up down, components.foldl (reduceStep []) [] = List.replicate up ['.', '.'] ++ down ∧ ['.', '.'] ∉ down ∧
      components.foldl (reduceStep root) above = above.take (above.length - up) ++ down := by
  induction components using List.reverseRecOn with
  | nil => exact ⟨0, [], rfl, not_mem_nil, by simp⟩
  | append_singleton components component ih =>
    obtain ⟨up, down, shape, free, shape'⟩ := ih
    rw [foldl_append, foldl_append, shape, shape', foldl_cons, foldl_nil, foldl_cons, foldl_nil]
    by_cases skip : component = [] ∨ component = ['.']
    · rw [reduceStep_skip skip, reduceStep_skip skip]
      exact ⟨up, down, rfl, free, rfl⟩
    by_cases climb : component = ['.', '.']
    · subst climb
      rcases eq_nil_or_concat' down with rfl | ⟨front, last, rfl⟩
      · rw [append_nil, append_nil, reduceStep_climb]
        refine ⟨up + 1, [], (append_nil _).symm, not_mem_nil, ?_⟩
        rcases eq_nil_or_concat' (above.take (above.length - up)) with none | ⟨front, last, cut⟩
        · have none' : above.take (above.length - (up + 1)) = [] := by
            rw [take_eq_nil_iff] at none ⊢
            exact none.imp (fun level => by omega) id
          rw [none, none', reduceStep_stay rooted]
          rfl
        have other : last ≠ ['.', '.'] := by
          rintro rfl
          exact low (mem_of_mem_take (cut ▸ mem_append_right front (mem_singleton_self _)))
        have fewer : front = above.take (above.length - (up + 1)) := by
          rw [← @List.dropLast_concat _ front last, ← cut, dropLast_eq_take, take_take, length_take]
          congr 1
          omega
        rw [cut, reduceStep_pop other, append_nil]
        exact fewer
      · have other : last ≠ ['.', '.'] := by
          rintro rfl
          exact free (by simp)
        rw [← append_assoc, ← append_assoc, reduceStep_pop other, reduceStep_pop other]
        exact ⟨up, front, rfl, fun listed => free (mem_append_left _ listed), rfl⟩
    · rw [reduceStep_push skip climb, reduceStep_push skip climb, append_assoc, append_assoc]
      refine ⟨up, down ++ [component], rfl, ?_, rfl⟩
      rw [mem_append, mem_singleton]
      exact fun listed => listed.elim free (fun same => climb same.symm)
end

/-- The package directory and the separator before what lies in it. -/
def packageRoot (packageDirectory : Text) : Text := ensureTrailingDirectorySeparator (normalizeSlashes packageDirectory)

structure HoldsPackage (packageDirectory : Text) : Prop where
  filled : packageDirectory ≠ []
  rooted : rootOf (packageRoot packageDirectory) ≠ []
  holds : rootOf (packageRoot packageDirectory ++ "package.json".toList) = rootOf (packageRoot packageDirectory)

def targetPath (host : Host) (packageDirectory target subpath : Text) (isPattern : Bool) : Text :=
  getNormalizedAbsolutePath (fillTarget (combinePaths packageDirectory [target]) subpath isPattern) host.currentDirectory

/-- The normalized path is that of the package directory with components below it. -/
def InsidePackage (packageDirectory path : Text) : Prop := ∃ below,
  path = rootOf (packageRoot packageDirectory) ++ join (reducedOf (packageRoot packageDirectory) ++ below) ∧
    ∀ c ∈ below, Proper c ∧ c ≠ ['.', '.']

/-- The path looked up is the package directory followed by the target, and lies inside the package. -/
def FollowsPackage (host : Host) (packageDirectory target subpath : Text) (isPattern : Bool) : Prop :=
  normalizeSlashes (fillTarget (combinePaths packageDirectory [target]) subpath isPattern) =
    normalizeSlashes (packageRoot packageDirectory ++ fillTarget target subpath isPattern) ∧
  InsidePackage packageDirectory (targetPath host packageDirectory target subpath isPattern)

/-- A text leads down from a directory, or it goes up and comes back by the names of the directories that it left. -/
def LeadsDown (above : List Text) (text : Text) : Prop :=
  let components := reduceText [] [] text
  let up := components.count ['.', '.']
  above.drop (above.length - up) <+: components.drop up

section
variable {root : Text}

theorem leadsDown_iff (rooted : root ≠ []) {above : List Text} (low : ['.', '.'] ∉ above) (text : Text) :
    above <+: reduceText root above text ↔ LeadsDown above text := by
  obtain ⟨up, down, shape, free, shape'⟩ := foldl_climbs rooted low (text.splitOn '/')
  have climbs : reduceText [] [] text = List.replicate up ['.', '.'] ++ down := shape
  have leads : reduceText root above text = above.take (above.length - up) ++ down := shape'
  have count : (List.replicate up ['.', '.'] ++ down).count ['.', '.'] = up := by
    rw [count_append, count_replicate_self, count_eq_zero_of_not_mem free, Nat.add_zero]
  have rest : (List.replicate up ['.', '.'] ++ down).drop up = down := by
    rw [drop_left' (length_replicate)]
  unfold LeadsDown
  dsimp only
  rw [climbs, count, rest, leads]
  conv => lhs; lhs; rw [← take_append_drop (above.length - up) above]
  exact prefix_append_right_inj _
end

section
variable {isPattern : Bool}

theorem normalizeSlashes_append (front back : Text) : normalizeSlashes (front ++ back) = normalizeSlashes front ++ normalizeSlashes back :=
  map_append

theorem normalizeSlashes_replaceAll (by_ text : Text) :
    normalizeSlashes (replaceAll '*' by_ text) = replaceAll '*' (normalizeSlashes by_) (normalizeSlashes text) := by
  induction text with
  | nil => rfl
  | cons c text ih =>
    have step : replaceAll '*' by_ (c :: text) = (if c = '*' then by_ else [c]) ++ replaceAll '*' by_ text := rfl
    have step' (c : Char) : replaceAll '*' (normalizeSlashes by_) (c :: normalizeSlashes text) =
      (if c = '*' then normalizeSlashes by_ else [c]) ++ replaceAll '*' (normalizeSlashes by_) (normalizeSlashes text) := rfl
    rw [step, normalizeSlashes_append, ih, normalizeSlashes_cons, step']
    congr 1
    by_cases star : c = '*'
    · subst star
      rfl
    rw [if_neg star]
    by_cases slash : c = '\\'
    · subst slash
      rfl
    · rw [if_neg slash, if_neg star]
      exact congrArg (fun c => [c]) (if_neg slash)

theorem normalizeSlashes_fillTarget (target subpath : Text) : normalizeSlashes (fillTarget target subpath isPattern) =
    fillTarget (normalizeSlashes target) (normalizeSlashes subpath) isPattern := by
  cases isPattern with
  | false => exact normalizeSlashes_append target subpath
  | true => exact normalizeSlashes_replaceAll subpath target

def fillDirectory (directory subpath : Text) (isPattern : Bool) : Text :=
  if isPattern then replaceAll '*' subpath directory else directory

theorem fillTarget_append (directory target subpath : Text) : fillTarget (directory ++ target) subpath isPattern =
    fillDirectory directory subpath isPattern ++ fillTarget target subpath isPattern := by
  cases isPattern with
  | false => exact append_assoc directory target subpath
  | true => exact replaceAll_append '*' subpath directory target
end

section
variable {packageDirectory target subpath : Text} {isPattern : Bool}

theorem packageRoot_slashed (packageDirectory : Text) : Slashed (packageRoot packageDirectory) := by
  have slashed := slashed_normalizeSlashes packageDirectory
  unfold packageRoot ensureTrailingDirectorySeparator
  split
  · exact slashed
  · intro inside
    rcases mem_append.mp inside with front | last
    · exact slashed front
    · exact absurd (mem_singleton.mp last) (by decide)

theorem packageRoot_trailing (packageDirectory : Text) : hasTrailingDirectorySeparator (packageRoot packageDirectory) = true := by
  unfold packageRoot ensureTrailingDirectorySeparator
  split
  · assumption
  · unfold hasTrailingDirectorySeparator
    rw [List.getLast?_concat]
    rfl

theorem mem_normalizeSlashes_star (text : Text) : '*' ∈ normalizeSlashes text ↔ '*' ∈ text := by
  unfold normalizeSlashes
  rw [mem_map]
  constructor
  · rintro ⟨c, listed, same⟩
    split at same
    · exact absurd same (by decide)
    · rwa [← same]
  · intro listed
    exact ⟨'*', listed, rfl⟩

theorem mem_packageRoot_star : '*' ∈ packageRoot packageDirectory ↔ '*' ∈ packageDirectory := by
  rw [← mem_normalizeSlashes_star packageDirectory]
  unfold packageRoot ensureTrailingDirectorySeparator
  split
  · rfl
  · rw [mem_append, mem_singleton]
    exact or_iff_left (by decide)

theorem normalizeSlashes_eq_star : normalizeSlashes subpath = ['*'] ↔ subpath = ['*'] := by
  constructor
  · intro same
    obtain ⟨c, rfl, here⟩ := map_eq_singleton_iff.mp same
    by_cases slash : c = '\\'
    · rw [if_pos slash] at here
      exact absurd here (by decide)
    · rw [if_neg slash] at here
      rw [here]
  · rintro rfl
    rfl

theorem fillDirectory_iff : normalizeSlashes (fillDirectory (packageRoot packageDirectory) subpath isPattern) = packageRoot packageDirectory ↔
    (isPattern = true → '*' ∈ packageDirectory → subpath = ['*']) := by
  have same := normalizeSlashes_of_slashed (packageRoot_slashed packageDirectory)
  cases isPattern with
  | false => exact iff_of_true same fun pattern => by cases pattern
  | true =>
    show normalizeSlashes (replaceAll '*' subpath (packageRoot packageDirectory)) = _ ↔ _
    rw [normalizeSlashes_replaceAll, same, replaceAll_eq_self_iff, mem_packageRoot_star, normalizeSlashes_eq_star]
    exact ⟨fun only _ => only, fun only => only rfl⟩

theorem combinePaths_target (filled : packageDirectory ≠ []) (some_ : target ≠ [])
    (unrooted : rootOf (normalizeSlashes target) = []) :
    combinePaths packageDirectory [target] = packageRoot packageDirectory ++ normalizeSlashes target := by
  have relative : ¬(normalizeSlashes packageDirectory = [] ∨ getRootLength (normalizeSlashes target) ≠ 0) := by
    rw [getRootLength_eq, unrooted, bytes_nil]
    exact fun either => either.elim (fun none => filled (map_eq_nil_iff.mp none)) fun rooted => rooted rfl
  show combineOne (normalizeSlashes packageDirectory) target = _
  unfold combineOne
  rw [if_neg some_]
  rw [if_neg relative]
  rfl

/-- The text that is looked up is the package directory with the target after it unless the target has a root, or
the substitution goes into the directory. -/
theorem text_iff (subpath : Text) (isPattern : Bool) (directory : HoldsPackage packageDirectory) (some_ : target ≠ []) :
    normalizeSlashes (fillTarget (combinePaths packageDirectory [target]) subpath isPattern) =
        normalizeSlashes (packageRoot packageDirectory ++ fillTarget target subpath isPattern) ↔
      rootOf (normalizeSlashes target) = [] ∧ (isPattern = true → '*' ∈ packageDirectory → subpath = ['*']) := by
  have slashed := normalizeSlashes_of_slashed (packageRoot_slashed packageDirectory)
  have again := normalizeSlashes_of_slashed (slashed_normalizeSlashes target)
  rw [normalizeSlashes_append, normalizeSlashes_fillTarget target, slashed]
  by_cases unrooted : rootOf (normalizeSlashes target) = []
  · rw [combinePaths_target directory.filled some_ unrooted, fillTarget_append, normalizeSlashes_append, normalizeSlashes_fillTarget, again,
      append_left_inj, fillDirectory_iff, and_iff_right unrooted]
  refine iff_of_false (fun same => ?_) fun both => unrooted both.1
  have alone : combinePaths packageDirectory [target] = normalizeSlashes target := combineOne_rooted unrooted _
  rw [alone, normalizeSlashes_fillTarget, again] at same
  refine directory.rooted ?_
  rw [append_left_eq_self.mp same.symm]
  rfl

theorem fillTarget_head (subpath : Text) (isPattern : Bool) (relative : "./".toList <+: target) : ∃ rest, fillTarget target subpath isPattern = '.' :: '/' :: rest := by
  obtain ⟨text, rfl⟩ := relative
  cases isPattern with
  | false => exact ⟨text ++ subpath, rfl⟩
  | true => exact ⟨replaceAll '*' subpath text, rfl⟩

theorem rootOf_below (directory : HoldsPackage packageDirectory) (rest : Text) :
    rootOf (packageRoot packageDirectory ++ '.' :: '/' :: rest) = rootOf (packageRoot packageDirectory) := by
  have slashed := packageRoot_slashed packageDirectory
  have trailing := packageRoot_trailing packageDirectory
  have before : beforeMore (packageRoot packageDirectory) = afterRoot (packageRoot packageDirectory) := if_pos trailing
  have more : afterRoot (packageRoot packageDirectory ++ "package.json".toList) ≠ [] := by
    intro none
    have whole := rootOf_append_afterRoot (packageRoot packageDirectory ++ "package.json".toList)
    rw [none, append_nil, directory.holds] at whole
    have whole' := rootOf_append_afterRoot (packageRoot packageDirectory)
    have sizes := congrArg List.length whole
    have sizes' := congrArg List.length whole'
    simp only [length_append] at sizes sizes'
    have some_ : "package.json".toList.length = 12 := rfl
    omega
  have slashedOther : Slashed (packageRoot packageDirectory ++ "package.json".toList) := by
    intro inside
    rcases mem_append.mp inside with front | name
    · exact slashed front
    · exact absurd name (by decide)
  have shape : packageRoot packageDirectory ++ '.' :: '/' :: rest = rootOf (packageRoot packageDirectory) ++
      (beforeMore (packageRoot packageDirectory) ++ '.' :: '/' :: rest) := by
    rw [before, ← append_assoc, rootOf_append_afterRoot]
  rw [shape]
  rcases rootOf_combined slashed directory.rooted directory.holds more slashedOther
    (show ('.' :: '/' :: rest).head? ≠ some '/' by simp) with stable | ⟨_, _, volume⟩
  · exact stable
  · rw [volume]
    exact append_nil _

theorem normalized_below (directory : HoldsPackage packageDirectory) (rest : Text) :
    normalized (packageRoot packageDirectory ++ '.' :: '/' :: rest) = rootOf (packageRoot packageDirectory) ++
      join (reduceText (rootOf (packageRoot packageDirectory)) (reducedOf (packageRoot packageDirectory)) ('.' :: '/' :: rest)) := by
  have stable := rootOf_below directory rest
  have before : beforeMore (packageRoot packageDirectory) = afterRoot (packageRoot packageDirectory) :=
    if_pos (packageRoot_trailing packageDirectory)
  have after : afterRoot (packageRoot packageDirectory ++ '.' :: '/' :: rest) =
      afterRoot (packageRoot packageDirectory) ++ '.' :: '/' :: rest := by
    have whole := rootOf_append_afterRoot (packageRoot packageDirectory ++ '.' :: '/' :: rest)
    have whole' := rootOf_append_afterRoot (packageRoot packageDirectory)
    rw [stable] at whole
    conv at whole => rhs; rw [← whole', append_assoc]
    exact append_cancel_left whole
  have steps := reduceText_beforeMore (packageRoot_slashed packageDirectory) ('.' :: '/' :: rest)
  rw [before] at steps
  rw [normalized, reducedOf, stable, after, steps]

theorem join_injective {components components' : List Text} (proper : ∀ c ∈ components, Proper c)
    (proper' : ∀ c ∈ components', Proper c) (same : join components = join components') : components = components' := by
  have pieces : ∀ {components : List Text}, (∀ c ∈ components, Proper c) → components ≠ [] → (join components).splitOn '/' = components :=
    fun proper some_ => splitOn_intercalate '/' (fun c listed => (proper c listed).free) some_
  by_cases none : components = []
  · by_cases none' : components' = []
    · rw [none, none']
    · rw [none] at same
      exact absurd same.symm (join_ne_nil none' proper')
  · by_cases none' : components' = []
    · rw [none'] at same
      exact absurd same (join_ne_nil none proper)
    · rw [← pieces proper none, same, pieces proper' none']

theorem inside_iff (directory : HoldsPackage packageDirectory) {rest : Text} (slashed : Slashed rest) :
    InsidePackage packageDirectory (normalized (packageRoot packageDirectory ++ '.' :: '/' :: rest)) ↔
      LeadsDown (reducedOf (packageRoot packageDirectory)) ('.' :: '/' :: rest) := by
  have low : ['.', '.'] ∉ reducedOf (packageRoot packageDirectory) := reduceText_rooted directory.rooted not_mem_nil _
  have slashedText : Slashed ('.' :: '/' :: rest) := by
    intro inside
    rcases mem_cons.mp inside with dot | inside
    · exact absurd dot (by decide)
    · rcases mem_cons.mp inside with slash | inside
      · exact absurd slash (by decide)
      · exact slashed inside
  have proper := reducedOf_proper (packageRoot_slashed packageDirectory)
  have proper' : ∀ c ∈ reduceText (rootOf (packageRoot packageDirectory)) (reducedOf (packageRoot packageDirectory)) ('.' :: '/' :: rest),
      Proper c := reduceText_proper slashedText proper
  have low' := reduceText_rooted directory.rooted low ('.' :: '/' :: rest)
  rw [normalized_below directory, ← leadsDown_iff directory.rooted low]
  constructor
  · rintro ⟨below, same, regular⟩
    refine ⟨below, (join_injective proper' ?_ (append_cancel_left same)).symm⟩
    intro c listed
    exact (mem_append.mp listed).elim (proper c) fun inside => (regular c inside).1
  rintro ⟨below, shape⟩
  rw [← shape] at proper' low'
  refine ⟨below, by rw [shape], fun c listed => ⟨proper' c (mem_append_right _ listed), ?_⟩⟩
  rintro rfl
  exact low' (mem_append_right _ listed)

theorem filled_rooted (directory : HoldsPackage packageDirectory) (relative : "./".toList <+: target)
    (unrooted : rootOf (normalizeSlashes target) = []) (kept : isPattern = true → '*' ∈ packageDirectory → subpath = ['*']) :
    rootOf (fillTarget (combinePaths packageDirectory [target]) subpath isPattern) ≠ [] := by
  have some_ : target ≠ [] := by
    rintro rfl
    exact absurd (prefix_nil.mp relative) (by decide)
  have relative' : "./".toList <+: normalizeSlashes target := by
    obtain ⟨text, rfl⟩ := relative
    exact ⟨normalizeSlashes text, rfl⟩
  have same : fillDirectory (packageRoot packageDirectory) subpath isPattern = packageRoot packageDirectory := by
    cases isPattern with
    | false => rfl
    | true => exact replaceAll_eq_self_iff.mpr fun listed => kept rfl (mem_packageRoot_star.mp listed)
  obtain ⟨rest, shape⟩ := fillTarget_head subpath isPattern relative'
  rw [combinePaths_target directory.filled some_ unrooted, fillTarget_append, same, shape, rootOf_below directory]
  exact directory.rooted

/-- The path looked up for a target follows the package directory and stays inside if and only if the target has no root, the
subpath is not put into the directory, and the filled target leads down from there. -/
theorem followsPackage_iff (host : Host) (directory : HoldsPackage packageDirectory) (relative : "./".toList <+: target) :
    FollowsPackage host packageDirectory target subpath isPattern ↔
      rootOf (normalizeSlashes target) = [] ∧ (isPattern = true → '*' ∈ packageDirectory → subpath = ['*']) ∧
        LeadsDown (reducedOf (packageRoot packageDirectory)) (normalizeSlashes (fillTarget target subpath isPattern)) := by
  have some_ : target ≠ [] := by
    rintro rfl
    exact absurd (prefix_nil.mp relative) (by decide)
  unfold FollowsPackage
  rw [text_iff subpath isPattern directory some_, and_assoc]
  refine and_congr_right fun unrooted => and_congr_right fun kept => ?_
  obtain ⟨rest, shape⟩ := fillTarget_head subpath isPattern relative
  have text := (text_iff subpath isPattern directory some_).mpr ⟨unrooted, kept⟩
  have slashed := normalizeSlashes_of_slashed (packageRoot_slashed packageDirectory)
  have slashedRest : normalizeSlashes (fillTarget target subpath isPattern) = '.' :: '/' :: normalizeSlashes rest := by
    rw [shape]
    rfl
  rw [normalizeSlashes_append, slashed, slashedRest] at text
  have notRelative : ¬(getRootLength (fillTarget (combinePaths packageDirectory [target]) subpath isPattern) = 0 ∧
      host.currentDirectory ≠ []) := by
    rw [getRootLength_eq]
    exact fun both => (bytes_pos (filled_rooted directory relative unrooted kept)).ne' both.1
  rw [slashedRest, ← inside_iff directory (slashed_normalizeSlashes rest), targetPath, getNormalizedAbsolutePath_eq,
    absoluteFileName, if_neg notRelative, text]
end

/-- Whether the parts of a target or of the subpath keep it from being looked up. -/
def rejectsTarget (target subpath : Text) : Bool :=
  let parts := getPathComponents target []
  ((if pathIsRelative target then parts.drop 1 else parts).drop 1).any isInvalidPart || (getPathComponents subpath []).any isInvalidPart

def loadTargetAt (host : Host) (extensions : Extensions) (scope : InfoCacheEntry) (isImports : Bool) (subpath target finalPath : Text) :
    ResolutionM (Option Resolved) := do
  match ← tryLoadInputFileForPath host finalPath subpath (combinePaths scope.packageDirectory ["package.json".toList]) isImports with
  | some inputLink =>
    if inputLink.isResolved then
      pure (some { inputLink with packageId := ← getPackageIdFromInfo host inputLink.path scope })
    else pure (some inputLink)
  | none =>
    match loadFileNameFromPackageJsonField host (← get) extensions finalPath target with
    | some result => pure (some { result with packageId := ← getPackageIdFromInfo host result.path scope })
    | none => pure none

/-- The only path that a target with `./` is looked up at, and when it stays inside the package. -/
theorem loadTargetFile_spec (host : Host) (extensions : Extensions) (scope : InfoCacheEntry) (isImports : Bool) (subpath : Text)
    (isPattern : Bool) (target : Text) (directory : HoldsPackage scope.packageDirectory) (relative : "./".toList <+: target) :
    loadTargetFile host extensions scope isImports subpath isPattern target =
      (if rejectsTarget target subpath then pure none
      else loadTargetAt host extensions scope isImports subpath target
        (targetPath host scope.packageDirectory target subpath isPattern)) ∧
    ((rejectsTarget target subpath = false → FollowsPackage host scope.packageDirectory target subpath isPattern) ↔
      (rejectsTarget target subpath = false → rootOf (normalizeSlashes target) = [] ∧
        (isPattern = true → '*' ∈ scope.packageDirectory → subpath = ['*']) ∧
        LeadsDown (reducedOf (packageRoot scope.packageDirectory)) (normalizeSlashes (fillTarget target subpath isPattern)))) :=
  ⟨rfl, imp_congr_right fun _ => followsPackage_iff host directory relative⟩

theorem holdsPackage_x : HoldsPackage "/p/x".toList := ⟨by decide, by decide, by decide⟩

theorem loadTargetFile_spec_dist :
    rejectsTarget "./dist/*.js".toList "a".toList = false ∧
      FollowsPackage emptyHost "/p/x".toList "./dist/*.js".toList "a".toList true :=
  ⟨by decide, (loadTargetFile_spec emptyHost ⟨true, true, true, true⟩ ⟨"/p/x".toList, true, none⟩ false "a".toList true
    "./dist/*.js".toList holdsPackage_x (by decide)).2.mpr
      (fun _ => ⟨by decide, fun _ listed => absurd listed (by decide), ⟨["dist".toList, "a.js".toList], by decide⟩⟩) (by decide)⟩

/-- A subpath that is empty makes dots of a part that the screens let through. -/
theorem emptySubpath_climbs :
    rejectsTarget "./*../y.js".toList [] = false ∧
      targetPath emptyHost "/p/x".toList "./*../y.js".toList [] true = "/p/y.js".toList ∧
      ¬ FollowsPackage emptyHost "/p/x".toList "./*../y.js".toList [] true := by
  refine ⟨by decide, by decide, fun follows => ?_⟩
  obtain ⟨_, _, down⟩ := (followsPackage_iff emptyHost holdsPackage_x (by decide)).mp follows
  obtain ⟨rest, shape⟩ := down
  exact absurd (List.cons.inj shape).1 (by decide)

end TypeScriptRs.Resolver
