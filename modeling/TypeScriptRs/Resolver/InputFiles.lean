import TypeScriptRs.Paths.Rebasing
import TypeScriptRs.Resolver.Keys

/-! The sources that the outputs of a project are mapped back to. -/
namespace TypeScriptRs.Resolver
open Utf8 Machine Paths List

variable (host : Host)

/-- The components by which paths are compared, the root first. -/
def componentsOf (path : Text) : List Text :=
  reducePathComponents (getPathComponents (combinePaths host.currentDirectory [path]) [])

def relativePart (directory path : Text) : Text :=
  join ((componentsOf host path).drop (componentsOf host directory).length)

/-- The text of a path up to as many components as a directory has. -/
def upperPart (directory path : Text) : Text :=
  match (componentsOf host path).take (componentsOf host directory).length with
  | [] => []
  | root :: components => root ++ join components

/-- The directory is no root, and the path has components below it. -/
def ProperlyBelow (directory path : Text) : Prop :=
  1 < (componentsOf host directory).length ∧ (componentsOf host directory).length < (componentsOf host path).length

instance (directory path : Text) : Decidable (ProperlyBelow host directory path) := inferInstanceAs (Decidable (_ ∧ _))

/-- The upper part of the path takes the bytes of the directory. Where no separator follows, it takes one byte more. -/
def FitsDirectory (directory path : Text) : Prop :=
  (ProperlyBelow host directory path ∧ bytes (upperPart host directory path) = bytes directory) ∨
    (¬ ProperlyBelow host directory path ∧ bytes (upperPart host directory path) = bytes directory + 1)

section
variable {path : Text}

theorem componentsOf_absolute (slashed : Slashed path) (rooted : rootOf path ≠ []) :
    componentsOf host path = rootOf path :: reducedOf path := by
  unfold componentsOf
  rw [combinePaths_rooted rooted, normalizeSlashes_of_slashed slashed, reducedComponents_rooted rooted,
    normalizeSlashes_of_slashed slashed]

theorem componentsOf_cons (path : Text) : ∃ root components, componentsOf host path = root :: components :=
  ⟨_, _, reducePathComponents_pathComponents _⟩

variable (directory : Text) (slashed : Slashed path) (rooted : rootOf path ≠ []) (same : normalized path = path)
include directory slashed rooted same

theorem parts_shape :
    path = upperPart host directory path ++ ((if ProperlyBelow host directory path then ['/'] else []) ++ relativePart host directory path) := by
  have components := componentsOf_absolute host slashed rooted
  obtain ⟨n, size⟩ : ∃ n, (componentsOf host directory).length = n + 1 := by
    obtain ⟨root, above, cons⟩ := componentsOf_cons host directory
    exact ⟨above.length, congrArg List.length cons⟩
  have below : ProperlyBelow host directory path ↔ n ≠ 0 ∧ n < (reducedOf path).length := by
    unfold ProperlyBelow
    rw [components, size, length_cons]
    omega
  unfold upperPart relativePart
  rw [components, size, take_succ_cons, drop_succ_cons]
  conv => lhs; rw [← same, normalized]
  rw [append_assoc]
  congr 1
  by_cases first : n = 0
  · rw [if_neg (fun inside => (below.mp inside).1 first), first]
    rfl
  by_cases last : n < (reducedOf path).length
  · have front : (reducedOf path).take n ≠ [] := ne_nil_of_length_pos (by rw [length_take]; omega)
    have back : (reducedOf path).drop n ≠ [] := ne_nil_of_length_pos (by rw [length_drop]; omega)
    rw [if_pos (below.mpr ⟨first, last⟩)]
    conv => lhs; rw [← take_append_drop n (reducedOf path)]
    exact Split.intercalate_append front back
  · rw [if_neg (fun inside => last (below.mp inside).2), take_of_length_le (Nat.le_of_not_lt last),
      drop_eq_nil_of_le (Nat.le_of_not_lt last)]
    exact (append_nil _).symm

/-- The slice of the path is its part below the directory exactly if the directory is as long as the part above. -/
theorem fragment_iff :
    dropBytes path (bytes directory + 1) = some (relativePart host directory path) ↔ FitsDirectory host directory path := by
  have shape := parts_shape host directory slashed rooted same
  rw [← append_assoc] at shape
  have offset : dropBytes path (bytes directory + 1) = some (relativePart host directory path) ↔ bytes directory + 1 =
      bytes (upperPart host directory path ++ if ProperlyBelow host directory path then ['/'] else []) := by
    conv => lhs; lhs; rw [shape]
    exact dropBytes_append_iff
  rw [offset, bytes_append]
  unfold FitsDirectory
  by_cases below : ProperlyBelow host directory path
  · simp only [below, true_and, not_true_eq_false, false_and, or_false]
    show bytes directory + 1 = bytes (upperPart host directory path) + 1 ↔ _
    omega
  · rw [if_neg below, bytes_nil]
    simp only [below, false_and, not_false_eq_true, true_and, false_or]
    omega
end

section
variable {host} {state : ResolutionState}

def outputExtensions : List Text := [extensionMjs, extensionCjs, extensionJs, extensionJson, extensionDmts, extensionDcts, extensionDts]

def candidateInputs (state : ResolutionState) (possibleInputBase : Text) : List Text :=
  outputExtensions.flatMap fun extension =>
    if fileExtensionIs possibleInputBase extension then
      ((getPossibleOriginalInputExtensionForExtension possibleInputBase).filter (extensionIsOk state.extensions ·)).map
        (changeExtension possibleInputBase ·)
    else []

def loadInput (host : Host) (state : ResolutionState) (possibleInput : Text) : Option Resolved :=
  if host.fileExists possibleInput then loadFileNameFromPackageJsonField host state state.extensions possibleInput [] else none

/-- The sources that a path is mapped to by its part below the output directories that contain it. -/
def inputsBelow (host : Host) (state : ResolutionState) (rootDir finalPath : Text) (directories : List Text) : List Text :=
  (directories.filter (containsPath host host.comparePathsOptions · finalPath)).flatMap fun directory =>
    candidateInputs state (combinePaths rootDir [relativePart host directory finalPath])

theorem findSome?_flatMap {α β γ : Type} (f : α → List β) (g : β → Option γ) (xs : List α) :
    (xs.flatMap f).findSome? g = xs.findSome? fun x => (f x).findSome? g := by
  induction xs with
  | nil => rfl
  | cons x xs ih =>
    rw [flatMap_cons, List.findSome?_append, ih, List.findSome?_cons]
    cases (f x).findSome? g <;> rfl

theorem findSome?_filter {α β : Type} (keep : α → Bool) (g : α → Option β) (xs : List α) :
    (xs.filter keep).findSome? g = xs.findSome? fun x => if keep x then g x else none := by
  induction xs with
  | nil => rfl
  | cons x xs ih =>
    rw [filter_cons, List.findSome?_cons]
    cases keep x with
    | true =>
      rw [if_pos rfl, List.findSome?_cons, ih]
      rfl
    | false =>
      rw [if_neg Bool.false_ne_true, ih]
      rfl

theorem inputFileOf_eq (possibleInputBase : Text) : inputFileOf host state possibleInputBase =
    (candidateInputs state possibleInputBase).findSome? (loadInput host state) := by
  unfold inputFileOf candidateInputs
  rw [findSome?_flatMap]
  congr 1
  funext extension
  split
  · rw [List.findSome?_map, findSome?_filter]
    congr 1
    funext possibleExtension
    cases extensionIsOk state.extensions possibleExtension <;> rfl
  · rfl

theorem firstSome_pure {α β : Type} {search : α → ResolutionM (Option β)} {found : α → Option β} {inputs : List α}
    (each : ∀ a ∈ inputs, search a state = pure (found a, state)) :
    firstSome search inputs state = pure (inputs.findSome? found, state) := by
  induction inputs with
  | nil => rfl
  | cons a rest ih =>
    have here := each a mem_cons_self
    have later := ih fun b listed => each b (mem_cons_of_mem a listed)
    change search a state >>= _ = _
    rw [here, List.findSome?_cons]
    cases found a with
    | some result => rfl
    | none => exact later

def rootDirOf (options : CompilerOptions) : Text :=
  if options.rootDir ≠ [] then options.rootDir else getDirectoryPath options.configFilePath

/-- The search that looks at the sources named by the parts of the path below the output directories. -/
def tryLoadBelow (host : Host) (finalPath entry packagePath : Text) (isImports : Bool) : ResolutionM (Option Resolved) := do
  let state ← get
  let options := state.compilerOptions
  if !mayBeOutput host state finalPath packagePath then pure none
  else if options.rootDir = [] ∧ options.configFilePath = [] then do
    let diagnostic : Diagnostic := { isImports, entry := if entry = [] then ['.'] else entry, packagePath }
    set { state with diagnostics := state.diagnostics ++ [diagnostic] }
    pure (some unresolved)
  else
    let directories := getOutputDirectoriesForBaseDirectory host options (rootDirOf options)
    pure ((inputsBelow host state (rootDirOf options) finalPath directories).findSome? (loadInput host state))

/-- The search over the output directories comes to an end, and looks at the sources that the parts of the path
below them name. -/
theorem tryLoad_eq (finalPath entry packagePath : Text) (isImports : Bool)
    (sliced : ∀ directory ∈ getOutputDirectoriesForBaseDirectory host state.compilerOptions (rootDirOf state.compilerOptions),
      containsPath host host.comparePathsOptions directory finalPath = true →
        dropBytes finalPath (bytes directory + 1) = some (relativePart host directory finalPath)) :
    tryLoadInputFileForPath host finalPath entry packagePath isImports state =
      tryLoadBelow host finalPath entry packagePath isImports state := by
  unfold tryLoadInputFileForPath tryLoadBelow
  rw [get_bind, get_bind]
  dsimp only
  split
  · rfl
  split
  · rfl
  unfold inputsBelow
  rw [findSome?_flatMap, findSome?_filter]
  refine firstSome_pure fun directory listed => ?_
  by_cases inside : containsPath host host.comparePathsOptions directory finalPath = true
  · rw [if_pos inside, if_pos inside, sliced directory listed inside, ← inputFileOf_eq]
    rfl
  · rw [if_neg inside, if_neg inside]
    rfl
end

section
variable {host} {directory path : Text}
end

variable {host}

def builtState : ResolutionState :=
  { freshState "p/a".toList with compilerOptions := { rootDir := "/p/src".toList, outDir := "/p/out".toList } }

end TypeScriptRs.Resolver
