import Mathlib.Data.Finset.Max
import TypeScriptRs.Lib.HashMap
import TypeScriptRs.Paths.CommonParents
import TypeScriptRs.Vfsmatch.Walk

/-! The directories to watch for the include specs with wildcards. -/
namespace TypeScriptRs.Config
open Utf8 Machine Paths HashMap List
open Vfsmatch (beforeLastSlash isImplicitGlob compileGlobPattern anyMatches GlobPattern)

structure WildcardDirectoryMatch where
  key : Text
  path : Text
  recursive : Bool
  deriving DecidableEq

/-- The options, with the lower case of characters and of a whole text. -/
structure PathKeys extends ComparePathsOptions where
  toLowercase : Char → Text
  textToLowercase : Text → Text

section
variable (h : PathKeys)

def PathKeys.toCanonicalKey (path : Text) : Text := if h.useCaseSensitiveFileNames then path else h.textToLowercase path

def PathKeys.contains (parent child : Text) : Bool := containsPath h.toLowercase h.toComparePathsOptions parent child

def isWildcard (c : Char) : Bool := c = '*' || c = '?'

def getWildcardDirectoryFromSpec (spec : Text) : Option WildcardDirectoryMatch :=
  let beforeWildcard := spec.takeWhile (!isWildcard ·)
  match if spec.any isWildcard then beforeLastSlash beforeWildcard else none with
  | some path => some ⟨h.toCanonicalKey path, path, '/' ∈ spec.drop beforeWildcard.length⟩
  | none =>
    let lastSegment := (spec.reverse.takeWhile (· ≠ '/')).reverse
    if '/' ∈ spec ∧ isImplicitGlob lastSegment then
      let path := removeTrailingDirectorySeparator spec
      some ⟨h.toCanonicalKey path, path, true⟩
    else none

structure WildcardState where
  wildcardDirectories : HashMap Text Bool := ∅
  wildcardKeyToPath : HashMap Text Text := ∅
  recursiveKeys : List Text := []

def WildcardState.record (s : WildcardState) (matched : WildcardDirectoryMatch) : WildcardState :=
  let existingPath := s.wildcardKeyToPath.lookup matched.key
  let existingRecursive := (existingPath.bind fun path => s.wildcardDirectories.lookup path).getD false
  if existingPath = none ∨ existingRecursive = false ∧ matched.recursive then
    { wildcardDirectories := s.wildcardDirectories.insert (existingPath.getD matched.path) matched.recursive
      wildcardKeyToPath := s.wildcardKeyToPath.insert matched.key (existingPath.getD matched.path)
      recursiveKeys := s.recursiveKeys ++ if matched.recursive then [matched.key] else [] }
  else s

/-- Another of the keys contains this one. -/
def surrounded (recursiveKeys : List Text) (key : Text) : Bool :=
  recursiveKeys.any fun recursiveKey => key ≠ recursiveKey && h.contains recursiveKey key

def WildcardState.prune (s : WildcardState) : WildcardState :=
  { s with wildcardDirectories := s.wildcardDirectories.alterAll fun path recursive =>
      if surrounded h s.recursiveKeys (h.toCanonicalKey path) then none else some recursive }

def specOf (file : Text) : Text := normalizeSlashes (combinePaths h.currentDirectory [file])

/-- The patterns of the exclude specs. Without any, nothing matches. -/
def excludePatterns (exclude : List Text) : List GlobPattern :=
  exclude.filterMap fun spec => compileGlobPattern spec h.currentDirectory .exclude h.useCaseSensitiveFileNames

def isExcluded (exclude : List Text) (spec : Text) : Outcome Bool :=
  anyMatches (·.matchesParts spec []) (excludePatterns h exclude)

def includeTurn (exclude : List Text) (s : WildcardState) (file : Text) : Outcome WildcardState := do
  let spec := specOf h file
  if ← isExcluded h exclude spec then return s
  let s := (getWildcardDirectoryFromSpec h spec).elim s s.record
  return s.prune h

def getWildcardDirectories (includes exclude : List Text) : Outcome (HashMap Text Bool) := do
  if includes = [] then return ∅
  let s ← includes.foldlM (includeTurn h exclude) {}
  return s.wildcardDirectories

/-- The directory of an include spec that is not excluded. -/
def directoryOf (exclude : List Text) (file : Text) : Option WildcardDirectoryMatch :=
  if isExcluded h exclude (specOf h file) = .ok false then getWildcardDirectoryFromSpec h (specOf h file) else none
end

section
variable {h : PathKeys} {seen : List WildcardDirectoryMatch} {s : WildcardState} {matched : WildcardDirectoryMatch} {key path : Text}

theorem key_of_spec {spec : Text} (found : getWildcardDirectoryFromSpec h spec = some matched) :
    matched.key = h.toCanonicalKey matched.path := by
  unfold getWildcardDirectoryFromSpec at found
  dsimp only at found
  split at found
  · cases found
    rfl
  · split at found
    · cases found
      rfl
    · cases found

theorem surrounded_iff {keys : List Text} : surrounded h keys key = true ↔ ∃ other ∈ keys, key ≠ other ∧ h.contains other key = true := by
  simp [surrounded]

/-- The paths, keys and entries of the directories met so far. The entry of a surrounded one may be gone. -/
structure Recorded (h : PathKeys) (seen : List WildcardDirectoryMatch) (s : WildcardState) : Prop where
  keys : ∀ key path, s.wildcardKeyToPath.lookup key = some path → h.toCanonicalKey path = key
  known : ∀ key, (∃ path, s.wildcardKeyToPath.lookup key = some path) ↔ ∃ m ∈ seen, m.key = key
  recursive : ∀ key, key ∈ s.recursiveKeys ↔ ∃ m ∈ seen, m.recursive = true ∧ m.key = key
  entries : ∀ path recursive, s.wildcardDirectories.lookup path = some recursive →
    s.wildcardKeyToPath.lookup (h.toCanonicalKey path) = some path ∧
      recursive = decide (h.toCanonicalKey path ∈ s.recursiveKeys)
  kept : ∀ key path, s.wildcardKeyToPath.lookup key = some path → surrounded h s.recursiveKeys key = false →
    s.wildcardDirectories.lookup path = some (decide (key ∈ s.recursiveKeys))

def WildcardState.Pruned (h : PathKeys) (s : WildcardState) : Prop :=
  ∀ path recursive, s.wildcardDirectories.lookup path = some recursive →
    surrounded h s.recursiveKeys (h.toCanonicalKey path) = false

theorem recorded_nil : Recorded h [] {} := by
  constructor <;> simp

theorem Recorded.prune (recorded : Recorded h seen s) : Recorded h seen (s.prune h) ∧ (s.prune h).Pruned h := by
  have left {path : Text} {recursive : Bool} :
      (s.prune h).wildcardDirectories.lookup path = some recursive ↔ s.wildcardDirectories.lookup path = some recursive ∧
          surrounded h s.recursiveKeys (h.toCanonicalKey path) = false := by
    unfold WildcardState.prune
    rw [lookup_alterAll, Option.bind_eq_some_iff]
    cases surrounded h s.recursiveKeys (h.toCanonicalKey path) <;> simp
  refine ⟨⟨recorded.keys, recorded.known, recorded.recursive, fun path recursive here => ?_,
    fun key path here alone => ?_⟩, fun path recursive here => (left.mp here).2⟩
  · exact recorded.entries path recursive (left.mp here).1
  · refine left.mpr ⟨recorded.kept key path here alone, ?_⟩
    rw [recorded.keys key path here]
    exact alone

theorem Recorded.record (recorded : Recorded h seen s) (own : matched.key = h.toCanonicalKey matched.path) :
    Recorded h (seen ++ [matched]) (s.record matched) := by
  unfold WildcardState.record
  dsimp only
  split
  · rename_i adds
    generalize found : (s.wildcardKeyToPath.lookup matched.key).getD matched.path = place
    have here : h.toCanonicalKey place = matched.key := by
      rw [← found]
      cases existing : s.wildcardKeyToPath.lookup matched.key with
      | none => exact own.symm
      | some path => exact recorded.keys matched.key path existing
    have only {path : Text} (existing : s.wildcardKeyToPath.lookup matched.key = some path) : path = place := by
      rw [← found, existing]
      rfl
    have listed (key : Text) : key ∈ s.recursiveKeys ++ (if matched.recursive then [matched.key] else []) ↔
        key ∈ s.recursiveKeys ∨ matched.recursive = true ∧ key = matched.key := by
      split <;> simp_all
    have flag : matched.recursive = decide (matched.key ∈ s.recursiveKeys ++ if matched.recursive then [matched.key] else []) := by
      rw [Bool.eq_iff_iff, decide_eq_true_iff, listed]
      refine ⟨fun all => .inr ⟨all, rfl⟩, fun either => either.elim (fun before => ?_) And.left⟩
      rcases adds with absent | ⟨-, all⟩
      · obtain ⟨m, member, -, same⟩ := (recorded.recursive _).mp before
        obtain ⟨path, existing⟩ := (recorded.known _).mpr ⟨m, member, same⟩
        cases absent.symm.trans existing
      · exact all
    refine ⟨fun key path => ?_, fun key => ?_, fun key => ?_, fun path recursive => ?_, fun key path => ?_⟩
    · rw [lookup_insert_if]
      split
      · rename_i same
        rintro ⟨⟩
        exact here.trans same.symm
      · exact recorded.keys key path
    · rw [lookup_insert_if]
      split
      · rename_i same
        exact iff_of_true ⟨place, rfl⟩ ⟨matched, by simp, same.symm⟩
      · rename_i other
        rw [recorded.known]
        simp [Ne.symm other, or_and_right, exists_or]
    · rw [listed, recorded.recursive, @eq_comm _ key]
      simp only [mem_append, mem_singleton, or_and_right, exists_or, exists_eq_left]
    · rw [lookup_insert_if, lookup_insert_if]
      split
      · rename_i same
        rintro ⟨⟩
        rw [same, here, if_pos rfl]
        exact ⟨rfl, flag⟩
      · rename_i other
        intro entry
        obtain ⟨existing, value⟩ := recorded.entries path recursive entry
        have apart : h.toCanonicalKey path ≠ matched.key := fun same =>
          other (only (same ▸ existing))
        rw [if_neg apart]
        exact ⟨existing, by simp [value, listed, apart]⟩
    · rw [lookup_insert_if, lookup_insert_if]
      intro existing alone
      split at existing
      · rename_i same
        cases existing
        rw [if_pos rfl, same, ← flag]
      · rename_i apart
        have other : path ≠ place := by
          rintro rfl
          exact apart ((recorded.keys key path existing).symm.trans here)
        have before : surrounded h s.recursiveKeys key = false := by
          rw [← Bool.not_eq_true, surrounded_iff] at alone ⊢
          rintro ⟨outer, member, rest⟩
          exact alone ⟨outer, (listed outer).mpr (.inl member), rest⟩
        rw [if_neg other, recorded.kept key path existing before]
        simp [listed, apart]
  · rename_i present
    obtain ⟨path, existing⟩ : ∃ path, s.wildcardKeyToPath.lookup matched.key = some path :=
      Option.ne_none_iff_exists'.mp fun absent => present (.inl absent)
    refine ⟨recorded.keys, fun key => ?_, fun key => ?_, recorded.entries, recorded.kept⟩
    · rw [recorded.known]
      have again := (recorded.known matched.key).mp ⟨path, existing⟩
      simp only [mem_append, mem_singleton, or_and_right, exists_or, exists_eq_left]
      exact ⟨.inl, fun either => either.elim id fun same => same ▸ again⟩
    · rw [recorded.recursive]
      simp only [mem_append, mem_singleton, or_and_right, exists_or, exists_eq_left]
      refine ⟨.inl, fun either => either.elim id ?_⟩
      rintro ⟨all, rfl⟩
      refine (recorded.recursive _).mp ?_
      have value : s.wildcardDirectories.lookup path = some true := by
        rw [existing] at present
        cases entry : s.wildcardDirectories.lookup path with
        | none => simp [entry, all] at present
        | some recursive => cases recursive <;> simp [entry, all] at present ⊢
      obtain ⟨-, listed⟩ := recorded.entries path true value
      rw [recorded.keys _ _ existing] at listed
      exact of_decide_eq_true listed.symm

/-- The directories of the include specs that are not excluded. -/
def directoriesOf (h : PathKeys) (exclude includes : List Text) : List WildcardDirectoryMatch :=
  includes.filterMap (directoryOf h exclude)

theorem Recorded.run (exclude : List Text) {includes : List Text} {s' : WildcardState}
    (recorded : Recorded h seen s) (pruned : s.Pruned h)
    (run : includes.foldlM (includeTurn h exclude) s = .ok s') :
    Recorded h (seen ++ directoriesOf h exclude includes) s' ∧ s'.Pruned h := by
  induction includes generalizing seen s with
  | nil =>
    cases run
    exact ⟨by simpa [directoriesOf] using recorded, pruned⟩
  | cons file includes ih =>
    obtain ⟨between, turn, rest⟩ := Outcome.bind_eq_ok run
    obtain ⟨excluded, decision, next⟩ := Outcome.bind_eq_ok turn
    have more (found : Option WildcardDirectoryMatch) (here : directoryOf h exclude file = found) :
        seen ++ directoriesOf h exclude (file :: includes) =
          seen ++ found.toList ++ directoriesOf h exclude includes := by
      rw [directoriesOf, directoriesOf, filterMap_cons, here, append_assoc]
      cases found <;> rfl
    cases excluded with
    | true =>
      cases next
      rw [more none (by simp [directoryOf, decision])]
      exact ih (by simpa using recorded) pruned rest
    | false =>
      cases next
      rw [more (getWildcardDirectoryFromSpec h (specOf h file)) (by simp [directoryOf, decision])]
      cases found : getWildcardDirectoryFromSpec h (specOf h file) with
      | none =>
        rw [found] at rest
        obtain ⟨recorded', pruned'⟩ := recorded.prune
        exact ih (by simpa using recorded') pruned' rest
      | some matched =>
        rw [found] at rest
        obtain ⟨recorded', pruned'⟩ := (recorded.record (key_of_spec found)).prune
        exact ih recorded' pruned' rest
end

variable {h : PathKeys} {parent child : Text} {keys : List Text}

/-- The root and the names of a path, as containment compares them. -/
def placeOf (h : PathKeys) (path : Text) : List Text :=
  let whole := combinePaths [] [combined h.toComparePathsOptions path]
  toFileNameLowerCase h.toLowercase (rootOf whole) :: (reducedOf whole).map (h.key h.toLowercase)

theorem contains_iff : h.contains parent child = true ↔
    combined h.toComparePathsOptions parent ≠ [] ∧ combined h.toComparePathsOptions child ≠ [] ∧
      placeOf h parent <+: placeOf h child := by
  have behind (path : Text) : combinePaths h.currentDirectory [path] = combined h.toComparePathsOptions path := rfl
  unfold PathKeys.contains containsPath placeOf getPathComponents
  dsimp only
  rw [behind, behind]
  by_cases empty : combined h.toComparePathsOptions parent = [] ∨ combined h.toComparePathsOptions child = []
  · rw [if_pos (by simpa using empty)]
    exact iff_of_false Bool.false_ne_true fun both => empty.elim both.1 both.2.1
  obtain ⟨some_, some'⟩ := not_or.mp empty
  rw [if_neg (by simpa using empty), and_iff_right some_, and_iff_right some']
  by_cases same : combined h.toComparePathsOptions parent = combined h.toComparePathsOptions child
  · rw [if_pos same, same]
    exact iff_of_true rfl (prefix_refl _)
  rw [if_neg same, reducePathComponents_pathComponents, reducePathComponents_pathComponents, zip_cons_cons,
    zipIdx_cons, all_cons, Bool.and_eq_true, Bool.and_eq_true, length_cons, length_cons,
    decide_eq_true_eq, Nat.succ_le_succ_iff, and_left_comm, componentsAgree_iff 0, cons_prefix_cons]
  unfold componentsAgree
  rw [if_pos rfl, decide_eq_true_eq]
  rfl

/-- The directory has an entry with everything in it if that is asked for, or an ancestor has one with everything in it. -/
def Watched (h : PathKeys) (watched : HashMap Text Bool) (matched : WildcardDirectoryMatch) : Prop :=
  ∃ path recursive, watched.lookup path = some recursive ∧
    (h.toCanonicalKey path = matched.key ∧ (matched.recursive = true → recursive = true) ∨
      recursive = true ∧ h.contains (h.toCanonicalKey path) matched.key = true)

/-- The keys of the directories that are watched with everything in them. -/
def recursiveKeys (matches_ : List WildcardDirectoryMatch) : List Text := (matches_.filter (·.recursive)).map (·.key)

/-- No directory around this one is not inside it. -/
def Outermost (h : PathKeys) (keys : List Text) (key : Text) : Prop :=
  ∀ outer ∈ keys, h.contains outer key = true → h.contains key outer = true

def SpelledTwice (h : PathKeys) (keys : List Text) (key : Text) : Prop :=
  ∃ other ∈ keys, other ≠ key ∧ h.contains other key = true ∧ h.contains key other = true

/-- No outermost directory is spelled in two ways. -/
def SpelledOnce (h : PathKeys) (keys : List Text) : Prop :=
  ∀ key ∈ keys, Outermost h keys key → ¬ SpelledTwice h keys key

theorem contains_trans {path : Text} (first : h.contains parent child = true) (second : h.contains child path = true) :
    h.contains parent path = true := by
  rw [contains_iff] at first second ⊢
  exact ⟨first.1, second.2.1, first.2.2.trans second.2.2⟩

theorem exists_outermost {key : Text} (listed : key ∈ keys) (around : h.contains key child = true) :
    ∃ outer ∈ keys, h.contains outer child = true ∧ Outermost h keys outer := by
  have some_ : (keys.toFinset.filter fun outer => h.contains outer child = true).Nonempty :=
    ⟨key, by simp [listed, around]⟩
  obtain ⟨outer, member, least⟩ := Finset.exists_min_image _ (fun outer => (placeOf h outer).length) some_
  simp only [Finset.mem_filter, mem_toFinset] at member least
  refine ⟨outer, member.1, member.2, fun further listed contains => ?_⟩
  have short := least further ⟨listed, contains_trans contains member.2⟩
  rw [contains_iff] at contains ⊢
  have same := contains.2.2.eq_of_length (le_antisymm contains.2.2.length_le short)
  exact ⟨contains.2.1, contains.1, same ▸ prefix_refl _⟩

/-- The directories of all include specs are watched just if no outermost one is spelled in two ways. -/
theorem watched_iff (h : PathKeys) {includes exclude : List Text} {watched : HashMap Text Bool}
    (returned : getWildcardDirectories h includes exclude = .ok watched) :
    (∀ m ∈ directoriesOf h exclude includes, Watched h watched m) ↔
      SpelledOnce h (recursiveKeys (directoriesOf h exclude includes)) := by
  unfold getWildcardDirectories at returned
  split at returned
  · rename_i none_
    simp [none_, directoriesOf, recursiveKeys, SpelledOnce]
  obtain ⟨s, run, last⟩ := Outcome.bind_eq_ok returned
  cases last
  obtain ⟨recorded, pruned⟩ := recorded_nil.run exclude (by simp [WildcardState.Pruned]) run
  generalize directoriesOf h exclude includes = directories at recorded
  have listed (key : Text) : key ∈ recursiveKeys directories ↔ key ∈ s.recursiveKeys := by
    rw [recorded.recursive]
    simp [recursiveKeys, and_assoc]
  have alone {key other : Text} (here : surrounded h s.recursiveKeys key = false)
      (member : other ∈ recursiveKeys directories) (contains : h.contains other key = true) : key = other := by
    by_contra apart
    rw [← Bool.not_eq_true, surrounded_iff] at here
    exact here ⟨other, (listed other).mp member, apart, contains⟩
  have entry {m : WildcardDirectoryMatch} (member : m ∈ directories)
      (here : surrounded h s.recursiveKeys m.key = false) :
      ∃ path, s.wildcardDirectories.lookup path = some (decide (m.key ∈ s.recursiveKeys)) ∧
        h.toCanonicalKey path = m.key := by
    obtain ⟨path, known⟩ := (recorded.known m.key).mpr ⟨m, member, rfl⟩
    exact ⟨path, recorded.kept m.key path known here, recorded.keys m.key path known⟩
  have recursive {key : Text} (member : key ∈ recursiveKeys directories) : ∃ m ∈ directories, m.key = key := by
    obtain ⟨m, inside, -, same⟩ := (recorded.recursive key).mp ((listed key).mp member)
    exact ⟨m, inside, same⟩
  constructor
  · rintro all key member outermost ⟨other, member', apart, contains, contains'⟩
    obtain ⟨m, inside, rfl⟩ := recursive member
    obtain ⟨path, value, found, place⟩ := all m inside
    have here := pruned path value found
    rcases place with ⟨same, -⟩ | ⟨rfl, around⟩
    · rw [same] at here
      exact apart (alone here member' contains).symm
    · have known : h.toCanonicalKey path ∈ recursiveKeys directories :=
        (listed _).mpr (of_decide_eq_true (recorded.entries path true found).2.symm)
      have same := alone here member (outermost _ known around)
      rw [same] at here
      exact apart (alone here member' contains).symm
  · intro once m inside
    by_cases here : surrounded h s.recursiveKeys m.key = true
    · obtain ⟨around, member, -, contains⟩ := surrounded_iff.mp here
      obtain ⟨outer, member', contains', outermost⟩ := exists_outermost ((listed around).mpr member) contains
      have clear : surrounded h s.recursiveKeys outer = false := by
        rw [← Bool.not_eq_true, surrounded_iff]
        rintro ⟨other, further, apart, contains''⟩
        have back := outermost other ((listed other).mpr further) contains''
        exact once outer member' outermost ⟨other, (listed other).mpr further, apart.symm, contains'', back⟩
      obtain ⟨m', inside', rfl⟩ := recursive member'
      obtain ⟨path, found, same⟩ := entry inside' clear
      refine ⟨path, _, found, .inr ⟨decide_eq_true ((listed _).mp member'), ?_⟩⟩
      rw [same]
      exact contains'
    · obtain ⟨path, found, same⟩ := entry inside (Bool.eq_false_iff.mpr here)
      exact ⟨path, _, found, .inl ⟨same, fun all => decide_eq_true ((recorded.recursive _).mpr ⟨m, inside, all, rfl⟩)⟩⟩

def sensitive : PathKeys := ⟨⟨true, "/p".toList⟩, fun c => [c.toLower], id⟩

theorem watched_iff_source : ∃ watched,
    getWildcardDirectories sensitive ["src/**/*".toList] [] = .ok watched ∧
    ∀ m ∈ directoriesOf sensitive [] ["src/**/*".toList],
      Watched sensitive watched m := by
  refine ⟨_, rfl, (watched_iff sensitive rfl).mpr ?_⟩
  unfold SpelledOnce Outermost SpelledTwice
  decide

/-- Two spellings of one directory remove the entries of each other. -/
theorem twoSpellings_unwatched : ∃ watched,
    getWildcardDirectories sensitive ["a/**/*".toList, "./a/**/*".toList] [] =
      .ok watched ∧
    ∃ m ∈ directoriesOf sensitive [] ["a/**/*".toList, "./a/**/*".toList],
      m.path = "/p/a".toList ∧ ¬ Watched sensitive watched m := by
  refine ⟨∅, rfl, ⟨"/p/a".toList, "/p/a".toList, true⟩, by decide, rfl, ?_⟩
  rintro ⟨path, recursive, found, -⟩
  simp at found

end TypeScriptRs.Config
