import TypeScriptRs.Resolver.PackageNames

/-! The names of a package's files, and of those it is a link to. -/
namespace TypeScriptRs.Autoimport
open Utf8 Paths Resolver List

abbrev DirCache := List (Text × Text)

section
variable (realpath : Text → Text) (packageDir : Text)

/-- The name below another directory, if it begins with this one. -/
def substituted (dir dir' fileName : Text) : Option Text := (fileName.dropPrefix? dir).map (dir' ++ ·)

/-- The name as it follows from the real path of the package directory found in it. -/
def fromRealDir (pkgDir realDir fileName : Text) : ResolutionM Text :=
  if realDir = pkgDir then pure fileName else do
    let after ← ofSlice (dropBytes fileName (bytes pkgDir))
    pure (realDir ++ after)

def toRealpath (dirCache : DirCache) (fileName : Text) : ResolutionM (Text × DirCache) :=
  match if realpath packageDir = packageDir then none else substituted packageDir (realpath packageDir) fileName with
  | some name => pure (name, dirCache)
  | none => do
    let pkgDir ← parseNodeModuleFromPath fileName false
    if pkgDir = [] then pure (fileName, dirCache)
    else
      match dirCache.lookup pkgDir with
      | some realDir => do pure (← fromRealDir pkgDir realDir fileName, dirCache)
      | none => do pure (← fromRealDir pkgDir (realpath pkgDir) fileName, (pkgDir, realpath pkgDir) :: dirCache)

def toSymlink (fileName : Text) : Text :=
  if realpath packageDir = packageDir then fileName else (substituted (realpath packageDir) packageDir fileName).getD fileName

/-- The caches that calls of `to_realpath` leave. -/
inductive Reached : DirCache → Prop
  | new : Reached []
  | called {dirCache dirCache' : DirCache} {fileName name : Text} : Reached dirCache →
      toRealpath realpath packageDir dirCache fileName = pure (name, dirCache') → Reached dirCache'
end

def Inside (dir fileName : Text) : Prop := fileName = dir ∨ ∃ rest, fileName = ensureTrailingDirectorySeparator dir ++ rest

section
variable {realpath : Text → Text} {packageDir dir dir' fileName name rest before : Text} {dirCache : DirCache}

theorem pure_inj {α : Type} {a b : α} (same : (pure a : ResolutionM α) = pure b) : a = b := by
  injection congrFun same (freshState []) with parts
  exact (Prod.mk.inj parts).1

theorem Inside.begins (inside : Inside dir fileName) : ∃ rest, fileName = dir ++ rest := by
  rcases inside with rfl | ⟨rest, rfl⟩
  · exact ⟨[], (append_nil _).symm⟩
  · unfold ensureTrailingDirectorySeparator
    split
    · exact ⟨rest, rfl⟩
    · exact ⟨'/' :: rest, append_assoc dir ['/'] rest⟩

theorem substituted_append (dir dir' rest : Text) : substituted dir dir' (dir ++ rest) = some (dir' ++ rest) := by
  have cut : (dir ++ rest).dropPrefix? dir = some rest := List.dropPrefix?_eq_some_iff.mpr ⟨dir, rfl, beq_self_eq_true dir⟩
  unfold substituted
  rw [cut, Option.map_some]

theorem substituted_eq_none (other : ¬dir <+: fileName) : substituted dir dir' fileName = none := by
  unfold substituted
  rw [Option.map_eq_none_iff]
  cases cut : fileName.dropPrefix? dir with
  | none => rfl
  | some rest =>
    obtain ⟨front, rfl, same⟩ := List.dropPrefix?_eq_some_iff.mp cut
    rw [beq_iff_eq.mp same] at other
    exact absurd (prefix_append dir rest) other

theorem toRealpath_below (linked : realpath packageDir ≠ packageDir) (rest : Text) :
    toRealpath realpath packageDir dirCache (packageDir ++ rest) = pure (realpath packageDir ++ rest, dirCache) := by
  unfold toRealpath
  rw [if_neg linked, substituted_append]

theorem toSymlink_below (linked : realpath packageDir ≠ packageDir) (rest : Text) :
    toSymlink realpath packageDir (realpath packageDir ++ rest) = packageDir ++ rest := by
  unfold toSymlink
  rw [if_neg linked, substituted_append, Option.getD_some]

theorem ofSlice_cases (text : Option Text) : (∃ part, ofSlice text = pure part) ∨ ofSlice text = abort notBoundary := by
  cases text with
  | some part => exact .inl ⟨part, rfl⟩
  | none => exact .inr rfl

theorem parse_cases (fileName : Text) : (∃ dir, parseNodeModuleFromPath fileName false = pure dir) ∨
    parseNodeModuleFromPath fileName false = abort notBoundary := by
  unfold parseNodeModuleFromPath
  dsimp only
  split
  · exact .inl ⟨[], rfl⟩
  · exact ofSlice_cases _

theorem abort_ne_pure {α : Type} {message : String} {a : α} : (abort message : ResolutionM α) ≠ pure a := by
  intro same
  cases congrFun same (freshState [])

theorem pure_then {α β : Type} (a : α) (next : α → ResolutionM β) : (pure a >>= next) = next a := rfl

theorem fromRealDir_then {made : Text × DirCache}
    (ran : (do pure (← fromRealDir dir dir' fileName, dirCache)) = (pure made : ResolutionM (Text × DirCache))) : made.2 = dirCache := by
  unfold fromRealDir at ran
  split at ran
  · exact (congrArg Prod.snd (pure_inj ran)).symm
  · obtain ⟨part, sliced⟩ | sliced := ofSlice_cases (dropBytes fileName (bytes dir))
    · rw [sliced] at ran
      exact (congrArg Prod.snd (pure_inj ran)).symm
    · rw [sliced] at ran
      exact absurd ran abort_ne_pure

theorem dirCache_after {dirCache' : DirCache} (ran : toRealpath realpath packageDir dirCache fileName = pure (name, dirCache')) :
    dirCache' = dirCache ∨ ∃ dir, dirCache' = (dir, realpath dir) :: dirCache := by
  unfold toRealpath at ran
  split at ran
  · exact .inl (congrArg Prod.snd (pure_inj ran)).symm
  · obtain ⟨dir, parsed⟩ | parsed := parse_cases fileName
    · rw [parsed, pure_then] at ran
      split at ran
      · exact .inl (congrArg Prod.snd (pure_inj ran)).symm
      split at ran
      · exact .inl (fromRealDir_then ran)
      · exact .inr ⟨dir, fromRealDir_then ran⟩
    · rw [parsed] at ran
      exact absurd ran abort_ne_pure

theorem Reached.lookup (reached : Reached realpath packageDir dirCache) {real : Text} (found : dirCache.lookup dir = some real) :
    real = realpath dir := by
  induction reached with
  | new => cases found
  | called reached ran ih =>
    rcases dirCache_after ran with rfl | ⟨dir', rfl⟩
    · exact ih found
    · rw [lookup_cons] at found
      split at found
      · rename_i same
        cases found
        rw [beq_iff_eq.mp same]
      · exact ih found

/-- The names that are not taken for those of files in a linked package. -/
def PassedOver (realpath : Text → Text) (packageDir fileName : Text) : Prop := realpath packageDir = packageDir ∨ ¬packageDir <+: fileName

theorem PassedOver.slow (over_ : PassedOver realpath packageDir fileName) :
    (if realpath packageDir = packageDir then none else substituted packageDir (realpath packageDir) fileName) = none := by
  rcases over_ with real | other
  · exact if_pos real
  · rw [substituted_eq_none other, ite_self]

theorem toRealpath_elsewhere (over_ : PassedOver realpath packageDir fileName)
    (outside : ∀ before text, replaceAll '\\' ['/'] fileName ≠ before ++ (nodeModules ++ text)) :
    toRealpath realpath packageDir dirCache fileName = pure (fileName, dirCache) := by
  unfold toRealpath
  rw [over_.slow]
  dsimp only
  rw [parse_outside outside, pure_then, if_pos rfl]

theorem fromRealDir_append (dir rest : Text) (dirCache : DirCache) :
    (do pure (← fromRealDir dir (realpath dir) (dir ++ rest), dirCache)) =
      (pure (realpath dir ++ rest, dirCache) : ResolutionM (Text × DirCache)) := by
  unfold fromRealDir
  split
  · rename_i same
    rw [pure_then, same]
  · rw [dropBytes_append]
    rfl

theorem toRealpath_package (reached : Reached realpath packageDir dirCache) (over_ : PassedOver realpath packageDir (dir ++ rest))
    (some_ : dir ≠ []) (parsed : parseNodeModuleFromPath (dir ++ rest) false = pure dir) :
    ∃ dirCache', toRealpath realpath packageDir dirCache (dir ++ rest) = pure (realpath dir ++ rest, dirCache') := by
  unfold toRealpath
  rw [over_.slow]
  dsimp only
  rw [parsed, pure_then, if_neg some_]
  cases found : dirCache.lookup dir with
  | some real =>
    rw [reached.lookup found]
    exact ⟨_, fromRealDir_append dir rest _⟩
  | none => exact ⟨_, fromRealDir_append dir rest _⟩

theorem parse_package (slashes : '\\' ∉ before ++ (nodeModules ++ (name ++ rest)))
    (inside : InNodeModules (before ++ (nodeModules ++ (name ++ rest))) before (name ++ rest)) (readable : Readable false (name ++ rest))
    (named : packageName false (name ++ rest) = name) :
    parseNodeModuleFromPath (before ++ nodeModules ++ name ++ rest) false = pure (before ++ nodeModules ++ name) := by
  rw [← replaceAll_free slashes ['/']] at inside
  have parsed := parse_inside inside readable
  rwa [named, ← append_assoc, ← append_assoc] at parsed
end

/-- A name in a linked package's directory is converted to the real directory and back, and one in the real directory back and forth. -/
def Inverse (realpath : Text → Text) (packageDir : Text) (dirCache : DirCache) (fileName : Text) : Prop :=
  (Inside packageDir fileName → ∃ name, toRealpath realpath packageDir dirCache fileName = pure (name, dirCache) ∧
    name ≠ fileName ∧ toSymlink realpath packageDir name = fileName) ∧
  (Inside (realpath packageDir) fileName →
    toRealpath realpath packageDir dirCache (toSymlink realpath packageDir fileName) = pure (fileName, dirCache))

/-- What becomes of names that do not begin with the linked directory: those in no `node_modules` directory are kept, and in a package
of one that package's directory is replaced by its real path. -/
structure Elsewhere (realpath : Text → Text) (packageDir : Text) (dirCache : DirCache) : Prop where
  outside : ∀ fileName, PassedOver realpath packageDir fileName →
    (∀ before text, replaceAll '\\' ['/'] fileName ≠ before ++ (nodeModules ++ text)) →
    toRealpath realpath packageDir dirCache fileName = pure (fileName, dirCache)
  package : ∀ before name rest, let fileName := before ++ nodeModules ++ name ++ rest
    PassedOver realpath packageDir fileName → '\\' ∉ fileName → InNodeModules fileName before (name ++ rest) →
    Readable false (name ++ rest) → packageName false (name ++ rest) = name →
    ∃ dirCache', toRealpath realpath packageDir dirCache fileName = pure (realpath (before ++ nodeModules ++ name) ++ rest, dirCache')
  back : ∀ fileName, realpath packageDir = packageDir ∨ ¬realpath packageDir <+: fileName → toSymlink realpath packageDir fileName = fileName

theorem packageRealpath_converts {realpath : Text → Text} {packageDir : Text} {dirCache : DirCache}
    (reached : Reached realpath packageDir dirCache) :
    (realpath packageDir ≠ packageDir → ∀ fileName, Inverse realpath packageDir dirCache fileName) ∧
      Elsewhere realpath packageDir dirCache := by
  refine ⟨fun linked fileName => ⟨fun inside => ?_, fun inside => ?_⟩, ⟨fun fileName => toRealpath_elsewhere, ?_, ?_⟩⟩
  · obtain ⟨rest, rfl⟩ := inside.begins
    exact ⟨_, toRealpath_below linked rest, fun same => linked (append_cancel_right same), toSymlink_below linked rest⟩
  · obtain ⟨rest, rfl⟩ := inside.begins
    rw [toSymlink_below linked, toRealpath_below linked]
  · intro before name rest fileName over_ slashes inside readable named
    have shape : fileName = before ++ (nodeModules ++ (name ++ rest)) := by simp [fileName]
    rw [shape] at slashes inside
    have some_ : nodeModules ≠ [] := by decide
    exact toRealpath_package reached over_ (fun none => some_ (append_eq_nil_iff.mp (append_eq_nil_iff.mp none).1).2)
      (parse_package slashes inside readable named)
  · intro fileName
    unfold toSymlink
    rintro (real | other)
    · exact if_pos real
    · rw [substituted_eq_none other, Option.getD_none, ite_self]

/-- The links of the tests: a package, and a dependency in its real directory. -/
def sampleRealpath (path : Text) : Text :=
  if path = "/symlink-bin/pkg".toList then "/real/bin/pkg".toList
  else if path = "/real/bin/pkg/node_modules/dep".toList then "/real/dep".toList
  else path

theorem packageRealpath_converts_linked : Inverse sampleRealpath "/symlink-bin/pkg".toList [] "/symlink-bin/pkg/index.d.ts".toList :=
  (packageRealpath_converts .new).1 (by decide) _

/-- A file of another package is converted too. -/
theorem packageRealpath_dependency : ¬∀ fileName name dirCache,
    toRealpath sampleRealpath "/symlink-bin/pkg".toList [] fileName = pure (name, dirCache) →
      (name ≠ fileName ↔ Inside "/symlink-bin/pkg".toList fileName) := by
  intro exact_
  have converted : toRealpath sampleRealpath "/symlink-bin/pkg".toList [] "/real/bin/pkg/node_modules/dep/index.d.ts".toList =
      pure ("/real/dep/index.d.ts".toList, [("/real/bin/pkg/node_modules/dep".toList, "/real/dep".toList)]) := rfl
  obtain ⟨rest, shape⟩ := ((exact_ _ _ _ converted).mp (by decide)).begins
  exact absurd (congrArg (List.take 2) shape) (by simp)

end TypeScriptRs.Autoimport
