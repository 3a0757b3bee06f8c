import TypeScriptRs.Lib.Displacing
import TypeScriptRs.Paths.Relative
import TypeScriptRs.Resolver.Extensions

/-! Which of several matched files with the same name and different extensions a project has. -/
namespace TypeScriptRs.FileNames
open Displacing Paths Resolver Utf8 List

def allSupportedExtensions : List (List Text) :=
  [[extensionTs, extensionTsx, extensionDts, extensionJs, extensionJsx], [extensionCts, extensionDcts, extensionCjs],
    [extensionMts, extensionDmts, extensionMjs]]

def supportedTsExtensions : List (List Text) :=
  [[extensionTs, extensionTsx, extensionDts], [extensionCts, extensionDcts], [extensionMts, extensionDmts]]

inductive ScriptKind where
  | unknown | js | jsx | ts | tsx | external | json | deferred
  deriving DecidableEq

structure FileExtensionInfo where
  extension : Text
  scriptKind : ScriptKind

def getSupportedExtensions (allowJs : Bool) (extraFileExtensions : List FileExtensionInfo) : List (List Text) :=
  let builtins := if allowJs then allSupportedExtensions else supportedTsExtensions
  let extra := extraFileExtensions.filter fun info => info.scriptKind = .deferred ||
    (allowJs && (info.scriptKind = .js || info.scriptKind = .jsx) && info.extension ∉ builtins.flatten)
  builtins ++ extra.map fun info => [info.extension]

def getSupportedExtensionsWithJsonIfResolveJsonModule (resolveJsonModule : Bool) (supportedExtensions : List (List Text)) :
    List (List Text) :=
  if resolveJsonModule then supportedExtensions ++ [[extensionJson]] else supportedExtensions

def hasJsFileExtension (path : Text) : Bool := fileExtensionIsOneOf path [extensionJs, extensionJsx, extensionMjs, extensionCjs]

def extensionGroup (file : Text) (extensions : List (List Text)) : List Text :=
  (extensions.find? fun group => group.any (fileExtensionIs file)).getD []

section
/-- The search for a kept file of higher priority, along a group of extensions. -/
def higherInGroup (file : Text) (hasFile : Text → Bool) : List Text → Bool
  | [] => false
  | ext :: group =>
    if fileExtensionIs file ext && (ext ≠ extensionTs || !fileExtensionIs file extensionDts) then false
    else if hasFile (changeExtension file ext) then
      if ext = extensionDts && (fileExtensionIs file extensionJs || fileExtensionIs file extensionJsx) then
        higherInGroup file hasFile group
      else true
    else higherInGroup file hasFile group

def hasFileWithHigherPriorityExtension (file : Text) (extensions : List (List Text)) (hasFile : Text → Bool) : Bool :=
  higherInGroup file hasFile (extensionGroup file extensions)

/-- The removal of kept files of lower priority, along a group of extensions from its end. -/
def removeInGroup (file : Text) (keyMapper : Text → Text) : List Text → List (Text × Text) → List (Text × Text)
  | [], wildcardFiles => wildcardFiles
  | ext :: group, wildcardFiles =>
    if fileExtensionIs file ext then wildcardFiles
    else removeInGroup file keyMapper group (wildcardFiles.filter (·.1 ≠ keyMapper (changeExtension file ext)))

def removeWildcardFilesWithLowerPriorityExtension (file : Text) (wildcardFiles : List (Text × Text)) (extensions : List (List Text))
    (keyMapper : Text → Text) : List (Text × Text) :=
  removeInGroup file keyMapper (extensionGroup file extensions).reverse wildcardFiles

def mapHasKey (map : List (Text × Text)) (key : Text) : Bool := map.any (·.1 = key)

variable (keyMapper : Text → Text) (extensions : List (List Text)) (literalFileMap : List (Text × Text))

/-- What the loop over the matched files does with a file that is not JSON. -/
def addWildcardFile (wildcardFileMap : List (Text × Text)) (file : Text) : List (Text × Text) :=
  if hasFileWithHigherPriorityExtension file extensions
      (fun fileName => mapHasKey literalFileMap (keyMapper fileName) || mapHasKey wildcardFileMap (keyMapper fileName)) then
    wildcardFileMap
  else
    let wildcardFileMap := removeWildcardFilesWithLowerPriorityExtension file wildcardFileMap extensions keyMapper
    let key := keyMapper file
    if !mapHasKey literalFileMap key && !mapHasKey wildcardFileMap key then wildcardFileMap ++ [(key, file)]
    else wildcardFileMap

def wildcardFiles (order : List Text) : List (Text × Text) :=
  (order.filter fun file => !fileExtensionIs file extensionJson).foldl (addWildcardFile keyMapper extensions literalFileMap) []
end

def higherNames (file : Text) : List Text → List Text
  | [] => []
  | ext :: group =>
    if fileExtensionIs file ext && (ext ≠ extensionTs || !fileExtensionIs file extensionDts) then []
    else if ext = extensionDts && (fileExtensionIs file extensionJs || fileExtensionIs file extensionJsx) then higherNames file group
    else changeExtension file ext :: higherNames file group

def lowerNames (file : Text) : List Text → List Text
  | [] => []
  | ext :: group => if fileExtensionIs file ext then [] else changeExtension file ext :: lowerNames file group

theorem higherInGroup_eq (file : Text) (hasFile : Text → Bool) (group : List Text) :
    higherInGroup file hasFile group = (higherNames file group).any hasFile := by
  induction group with
  | nil => rfl
  | cons ext group ih =>
    unfold higherInGroup higherNames
    split
    · rfl
    split
    · rename_i found
      split
      · exact ih
      · simp [found]
    · rename_i absent
      split
      · exact ih
      · simp [absent, ih]

theorem removeInGroup_eq (file : Text) (keyMapper : Text → Text) (group : List Text) (kept : List (Text × Text)) :
    removeInGroup file keyMapper group kept = kept.filter (·.1 ∉ (lowerNames file group).map keyMapper) := by
  induction group generalizing kept with
  | nil => simp [removeInGroup, lowerNames]
  | cons ext group ih =>
    unfold removeInGroup lowerNames
    split
    · simp
    · rw [ih, filter_filter]
      apply filter_congr
      intro entry _
      rw [map_cons, Bool.and_comm, ← Bool.decide_and, decide_eq_decide, mem_cons, not_or]

variable (keyMapper : Text → Text) (extensions : List (List Text)) (literalFileMap : List (Text × Text))

def priorityRules : Rules Text Text where
  key := keyMapper
  fixed := mapHasKey literalFileMap
  blockers file := (higherNames file (extensionGroup file extensions)).map keyMapper
  displaced file := (lowerNames file (extensionGroup file extensions).reverse).map keyMapper

theorem addWildcardFile_eq : addWildcardFile keyMapper extensions literalFileMap =
    (priorityRules keyMapper extensions literalFileMap).arrive := by
  funext kept file
  have holds : ∀ kept key, (priorityRules keyMapper extensions literalFileMap).holds kept key =
      (mapHasKey literalFileMap key || mapHasKey kept key) := fun _ _ => by
    simp [Rules.holds, priorityRules, mapHasKey]
  have removed : removeWildcardFilesWithLowerPriorityExtension file kept extensions keyMapper =
      (priorityRules keyMapper extensions literalFileMap).remaining kept file := by
    unfold removeWildcardFilesWithLowerPriorityExtension Rules.remaining
    rw [removeInGroup_eq]
    simp [priorityRules]
  have blocked : hasFileWithHigherPriorityExtension file extensions (fun fileName =>
        mapHasKey literalFileMap (keyMapper fileName) || mapHasKey kept (keyMapper fileName)) =
      ((priorityRules keyMapper extensions literalFileMap).blockers file).any
        ((priorityRules keyMapper extensions literalFileMap).holds kept) := by
    unfold hasFileWithHigherPriorityExtension
    rw [higherInGroup_eq, funext (holds kept)]
    simp [priorityRules, Function.comp_def]
  unfold addWildcardFile Rules.arrive
  rw [blocked, removed]
  by_cases turned : ((priorityRules keyMapper extensions literalFileMap).blockers file).any
      ((priorityRules keyMapper extensions literalFileMap).holds kept) = true
  · rw [if_pos turned, if_pos turned]
  have key : (priorityRules keyMapper extensions literalFileMap).key file = keyMapper file := rfl
  dsimp only
  rw [holds, key, ← Bool.not_or]
  cases mapHasKey literalFileMap (keyMapper file) ||
    mapHasKey ((priorityRules keyMapper extensions literalFileMap).remaining kept file) (keyMapper file) <;> rfl

/-- The extensions of a group before that of the file; those of declarations do not count against JavaScript. -/
def higherExtensions (file : Text) : List Text :=
  let group := extensionGroup file extensions
  let isOwn ext := fileExtensionIs file ext && group.all fun longer => !fileExtensionIs file longer || longer.length ≤ ext.length
  (group.takeWhile (!isOwn ·)).filter fun ext => !(ext ∈ supportedDeclarationExtensions && hasJsFileExtension file)

/-- The files that stay when each gives way exactly to a kept file of its name with an extension of higher priority. -/
def ByPriority (files : List Text) (stays : Text → Prop) : Prop :=
  ∀ file ∈ files, mapHasKey literalFileMap (keyMapper file) = false → (¬stays file ↔
    ∃ ext ∈ higherExtensions extensions file, mapHasKey literalFileMap (keyMapper (changeExtension file ext)) = true ∨
      ∃ kept ∈ files, stays kept ∧ keyMapper kept = keyMapper (changeExtension file ext))

def notJson (files : List Text) : List Text := files.filter fun file => !fileExtensionIs file extensionJson

/-- The kept files are the same for every order of the visited files, and each dropped file gives way to a kept one. -/
def KeptByPriority (files : List Text) : Prop :=
  ∃ stays : Text → Prop, ByPriority keyMapper extensions literalFileMap (notJson files) stays ∧
    ∀ order, order.Perm files → ∀ file ∈ notJson files,
      (keyMapper file, file) ∈ wildcardFiles keyMapper extensions literalFileMap order ↔ stays file

variable {files : List Text}

theorem kept_iff_settled (nodup : ((notJson files).map keyMapper).Nodup) :
    KeptByPriority keyMapper extensions literalFileMap files ↔ ∃ stays, ByPriority keyMapper extensions literalFileMap (notJson files) stays ∧
      (priorityRules keyMapper extensions literalFileMap).Settled (notJson files) stays := by
  apply exists_congr
  intro stays
  rw [← (priorityRules keyMapper extensions literalFileMap).orders_iff_settled nodup]
  apply and_congr_right
  intro _
  have fold : ∀ order, wildcardFiles keyMapper extensions literalFileMap order =
      (priorityRules keyMapper extensions literalFileMap).run (notJson order) := by
    intro order
    unfold wildcardFiles
    rw [addWildcardFile_eq]
    rfl
  constructor
  · intro every order perm file member
    have whole : (order ++ files.filter (fileExtensionIs · extensionJson)).Perm files := by
      apply (perm.append_right _).trans
      simpa [notJson] using (perm_append_comm.trans (filter_append_perm (fileExtensionIs · extensionJson) files))
    have rest : notJson (order ++ files.filter (fileExtensionIs · extensionJson)) = order := by
      have plain : ∀ file ∈ order, fileExtensionIs file extensionJson = false := by
        intro file member
        simpa [notJson] using (mem_filter.mp (perm.mem_iff.mp member)).2
      unfold notJson
      rw [filter_append, filter_eq_self.mpr (by simpa using plain), filter_eq_nil_iff.mpr (by simp), append_nil]
    have result := every _ whole file member
    rw [fold, rest] at result
    exact result
  · intro every order perm file member
    rw [fold]
    exact every (notJson order) (perm.filter _) file member

theorem kept_iff_settled_source : KeptByPriority id allSupportedExtensions [] ["/p/a.ts".toList, "/p/a.js".toList] ↔
    ∃ stays, ByPriority id allSupportedExtensions [] (notJson ["/p/a.ts".toList, "/p/a.js".toList]) stays ∧
      (priorityRules id allSupportedExtensions []).Settled (notJson ["/p/a.ts".toList, "/p/a.js".toList]) stays :=
  kept_iff_settled id allSupportedExtensions [] (by decide +kernel)

/-- A declaration file removes the script of its name if it is visited after it, and leaves it if visited before it. -/
theorem declaration_removes : ¬KeptByPriority id allSupportedExtensions [] ["/p/a.js".toList, "/p/a.d.ts".toList] := by
  rintro ⟨stays, _, every⟩
  have script : "/p/a.js".toList ∈ notJson ["/p/a.js".toList, "/p/a.d.ts".toList] := by decide +kernel
  have removed : ¬stays "/p/a.js".toList := by
    rw [← every _ (.refl _) _ script]
    decide +kernel
  have kept : stays "/p/a.js".toList := by
    rw [← every ["/p/a.d.ts".toList, "/p/a.js".toList] (List.Perm.swap _ _ _) _ script]
    decide +kernel
  exact removed kept

end TypeScriptRs.FileNames
