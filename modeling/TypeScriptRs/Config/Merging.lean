import TypeScriptRs.Config.Parsing

/-! What merging options does to each of them. -/
namespace TypeScriptRs.Config
open Machine Utf8 Entries List

namespace Json

theorem asObject_coherent {json : Json} {entries : List (String × Json)} (object : json.asObject = some entries) :
    Coherent entries := by
  cases json with
  | object entries' =>
    cases object
    exact distinct_coherent entries'
  | _ => cases object

theorem get_insert {json : Json} (object : json.asObject.isSome) (key : String) (value : Json) (k : String) :
    (json.insert key value).get k = if k = key then some value else json.get k := by
  cases json with
  | object entries =>
    change (distinct (Entries.insert entries key value)).lookup k = if k = key then some value else (distinct entries).lookup k
    rw [lookup_distinct, lookup_distinct, lookup_insert]
  | _ => cases object

theorem asObject_insert (json : Json) (key : String) (value : Json) :
    (json.insert key value).asObject.isSome = json.asObject.isSome := by
  cases json <;> rfl

theorem asObject_of_get {json : Json} {key : String} (found : (json.get key).isSome) : json.asObject.isSome := by
  cases json with
  | object entries => rfl
  | _ => cases found

end Json

def isNullOption (raw : Json) (name : String) : Bool :=
  ((compilerOptionsOf raw).bind (·.lookup name)).any Json.isNull

def isMentioned (raw : Json) (name : String) : Bool := ((compilerOptionsOf raw).bind (·.lookup name)).isSome

section
theorem serialize_default : CompilerOptions.default.serialize = [] := by
  rw [CompilerOptions.serialize, filterMap_eq_nil_iff]
  exact fun name _ => if_pos rfl

theorem lookup_serialize (options : CompilerOptions) (k : String) : options.serialize.lookup k =
    if k ∈ fieldNames ∧ options.values k ≠ defaultValue k then some (options.values k) else none := by
  unfold CompilerOptions.serialize
  induction fieldNames with
  | nil => rfl
  | cons name names ih =>
    rw [filterMap_cons]
    by_cases left : options.values name = defaultValue name
    · rw [if_pos left, ih]
      by_cases same : k = name
      · subst same
        simp [left]
      · simp [same]
    rw [if_neg left]
    rw [lookup_cons_if, ih]
    by_cases same : k = name
    · subst same
      simp [left]
    · simp [same]

theorem lookup_mergeJsonObjects (target : List (String × FieldValue)) (options : CompilerOptions) (k : String) :
    (mergeJsonObjects target options.serialize).lookup k =
      if k ∈ fieldNames ∧ options.values k ≠ defaultValue k then some (options.values k) else target.lookup k := by
  unfold mergeJsonObjects
  rw [serialize_default]
  unfold CompilerOptions.serialize
  induction fieldNames generalizing target with
  | nil => rfl
  | cons name names ih =>
    rw [filterMap_cons]
    by_cases left : options.values name = defaultValue name
    · rw [if_pos left, ih]
      by_cases same : k = name
      · subst same
        simp [left]
      · simp [same]
    rw [if_neg left]
    rw [foldl_cons, if_pos (by simp), ih, lookup_insert]
    by_cases same : k = name
    · subst same
      simp [left]
    · simp [same]

/-- An explicit null puts the default of its option, or nothing. -/
def applyNull (defaults target : List (String × FieldValue)) (e : String × Json) : List (String × FieldValue) :=
  if e.2.isNull then
    match defaults.lookup e.1 with
    | some defaultValue => Entries.insert target e.1 defaultValue
    | none => remove target e.1
  else target

theorem lookup_applyExplicitNull (target : List (String × FieldValue)) (raw : Json) (k : String) :
    (applyExplicitNullCompilerOptions target (some raw)).lookup k = if isNullOption raw k then none else target.lookup k := by
  unfold applyExplicitNullCompilerOptions isNullOption
  rw [Option.bind_some, serialize_default]
  cases options : compilerOptionsOf raw with
  | none => rfl
  | some entries =>
    have coherent : Coherent entries := by
      obtain ⟨json, -, object⟩ := Option.bind_eq_some_iff.mp options
      exact Json.asObject_coherent object
    have each (rest : List (String × Json)) (target : List (String × FieldValue)) :
        (rest.foldl (applyNull []) target).lookup k =
        if rest.any (fun e => e.1 = k && e.2.isNull) then none else target.lookup k := by
      induction rest generalizing target with
      | nil => rfl
      | cons e rest ih =>
        rw [foldl_cons, ih, any_cons, applyNull]
        cases gone : e.2.isNull with
        | false => rw [if_neg Bool.false_ne_true, Bool.and_false, Bool.false_or]
        | true =>
          dsimp only [lookup_nil]
          rw [if_pos rfl, lookup_remove]
          by_cases same : k = e.1
          · simp [same]
          · have other : decide (e.1 = k) = false := decide_eq_false (Ne.symm same)
            rw [if_neg same, other, Bool.false_and, Bool.false_or]
    refine (each entries target).trans ?_
    congr 1
    rw [Option.bind_some, eq_iff_iff, any_eq_true]
    constructor
    · rintro ⟨e, member, both⟩
      obtain ⟨same, gone⟩ := Bool.and_eq_true_iff.mp both
      rw [← of_decide_eq_true same, coherent e member]
      exact gone
    · intro gone
      obtain ⟨value, found, gone⟩ := (Option.any_eq_true _ _).mp gone
      exact ⟨(k, value), mem_of_lookup found, by simpa using gone⟩

/-- The options say something about an option, be it its default. -/
def honours (options : CompilerOptions) (k : String) : Bool :=
  options.values k ≠ defaultValue k || (k = "typeRoots" && options.typeRootsConfigured) ||
    (k = "paths" && !options.pathsForValidation.isEmpty)

structure Quiet (options : CompilerOptions) (raw : Json) : Prop where
  typeRoots : isNullOption raw "typeRoots" = true → options.typeRootsConfigured = false
  charset : isNullOption raw "charset" = true → options.values "charset" = defaultValue "charset"

variable {base overrides : CompilerOptions} {raw : Json} {k : String}

theorem values_set (options : CompilerOptions) (name : String) (value : FieldValue) (k : String) :
    (options.set name value).values k = if k = name then value else options.values k := Function.update_apply _ _ _ _

theorem values_restoreTarget (overrides base : CompilerOptions) : (restoreTarget overrides base).values = base.values := by
  unfold restoreTarget
  split <;> rfl

theorem values_restoreCharset (overrides base : CompilerOptions) (k : String) : (restoreCharset overrides base).values k =
    if k = "charset" ∧ overrides.values "charset" ≠ .text [] then overrides.values k else base.values k := by
  unfold restoreCharset
  split
  · rename_i given
    rw [values_set]
    by_cases same : k = "charset"
    · simp [same, given]
    · simp [same]
  · rename_i given
    rw [if_neg fun both => given both.2]

theorem values_restoreTypeRoots (overrides base : CompilerOptions) (k : String) : (restoreTypeRoots overrides base).values k =
    if k = "typeRoots" ∧ overrides.typeRootsConfigured = true then overrides.values k else base.values k := by
  unfold restoreTypeRoots
  split
  · rename_i given
    rw [values_set]
    by_cases same : k = "typeRoots"
    · simp [same, given]
    · simp [same]
  · rename_i given
    rw [if_neg fun both => given both.2]

theorem values_restorePaths (overrides base : CompilerOptions) (basePathsForValidation : List (String × Json)) (k : String) :
    (restorePaths overrides basePathsForValidation base).values k =
      if k = "paths" ∧ overrides.values "paths" = .paths [] ∧ overrides.pathsForValidation ≠ [] then .paths [] else base.values k := by
  unfold restorePaths
  dsimp only
  split
  · split
    · rw [values_set]
      by_cases same : k = "paths"
      · simp_all
      · simp [same]
    · rename_i keeps
      rw [if_neg fun all => keeps (by simp [all.2.1, all.2.2])]
  · rename_i unspecified
    rw [if_neg fun all => unspecified (by simp [all.2.2])]

theorem merge_typeRootsConfigured (base overrides : CompilerOptions) (raw : Option Json) :
    (mergeCompilerOptions base overrides raw).typeRootsConfigured = overrides.typeRootsConfigured := by
  have target (options : CompilerOptions) : (restoreTarget overrides options).typeRootsConfigured = options.typeRootsConfigured := by
    unfold restoreTarget
    split <;> rfl
  have charset (options : CompilerOptions) : (restoreCharset overrides options).typeRootsConfigured = options.typeRootsConfigured := by
    unfold restoreCharset
    split <;> rfl
  have paths (options : CompilerOptions) (validation : List (String × Json)) :
      (restorePaths overrides validation options).typeRootsConfigured = options.typeRootsConfigured := by
    unfold restorePaths
    dsimp only
    split
    · split <;> rfl
    · rfl
  unfold mergeCompilerOptions
  rw [target, charset]
  unfold restoreTypeRoots
  split
  · rename_i configured
    exact configured.symm
  · rename_i unconfigured
    rw [paths, Bool.not_eq_true _ |>.mp unconfigured]
    rfl

theorem merge_pathsForValidation (base overrides : CompilerOptions) (raw : Option Json) :
    (mergeCompilerOptions base overrides raw).pathsForValidation =
      if honours overrides "paths" then overrides.pathsForValidation else base.pathsForValidation := by
  have target (options : CompilerOptions) : (restoreTarget overrides options).pathsForValidation = options.pathsForValidation := by
    unfold restoreTarget
    split <;> rfl
  have charset (options : CompilerOptions) : (restoreCharset overrides options).pathsForValidation = options.pathsForValidation := by
    unfold restoreCharset
    split <;> rfl
  have typeRoots (options : CompilerOptions) :
      (restoreTypeRoots overrides options).pathsForValidation = options.pathsForValidation := by
    unfold restoreTypeRoots
    split <;> rfl
  have same : honours overrides "paths" =
      (!decide (overrides.values "paths" = .paths []) || !overrides.pathsForValidation.isEmpty) := by
    have default_ : defaultValue "paths" = .paths [] := by decide
    simp [honours, default_]
  unfold mergeCompilerOptions
  rw [target, charset, typeRoots, same]
  unfold restorePaths
  dsimp only
  split
  · split <;> rfl
  · rfl

theorem values_deserialize (fields : List (String × FieldValue)) (k : String) :
    (deserialize fields).values k = (fields.lookup k).getD (defaultValue k) := rfl

theorem merged_value (base overrides : CompilerOptions) (raw : Json) {k : String} (field : k ∈ fieldNames) :
    (deserialize (applyExplicitNullCompilerOptions (mergeJsonObjects base.serialize overrides.serialize) (some raw))).values k =
      if isNullOption raw k then defaultValue k
      else if overrides.values k ≠ defaultValue k then overrides.values k else base.values k := by
  rw [values_deserialize, lookup_applyExplicitNull, lookup_mergeJsonObjects, lookup_serialize]
  split
  · rfl
  by_cases given : overrides.values k = defaultValue k
  · by_cases before : base.values k = defaultValue k
    · simp [given, before]
    · simp [field, given, before]
  · simp [field, given]

theorem merge_value (quiet : Quiet overrides raw) (field : k ∈ fieldNames) :
    (mergeCompilerOptions base overrides (some raw)).values k =
      if isNullOption raw k then defaultValue k else if honours overrides k then overrides.values k else base.values k := by
  unfold mergeCompilerOptions
  rw [values_restoreTarget, values_restoreCharset, values_restoreTypeRoots, values_restorePaths, merged_value _ _ _ field]
  by_cases charset : k = "charset"
  · have default_ : defaultValue "charset" = .text [] := by decide
    subst charset
    cases null : isNullOption raw "charset" with
    | true =>
      have unset := quiet.charset null
      simp [unset, default_]
    | false =>
      by_cases given : overrides.values "charset" = .text []
      · simp [honours, default_, given]
      · simp [honours, default_, given]
  by_cases typeRoots : k = "typeRoots"
  · subst typeRoots
    cases null : isNullOption raw "typeRoots" with
    | true => simp [quiet.typeRoots null]
    | false =>
      cases configured : overrides.typeRootsConfigured <;> simp [honours, configured]
  by_cases paths : k = "paths"
  · have default_ : defaultValue "paths" = .paths [] := by decide
    subst paths
    cases null : isNullOption raw "paths" with
    | true => simp [default_]
    | false =>
      by_cases empty : overrides.values "paths" = .paths []
      · by_cases valid : overrides.pathsForValidation = []
        · simp [honours, default_, empty, valid]
        · simp [honours, default_, empty, valid]
      · simp [honours, default_, empty]
  · simp [honours, charset, typeRoots, paths]
end

namespace Host

variable {host : Host} {json : Json} {basePath configFileName : Text} {own : ParsedTsconfig}
variable {options : List (String × Text)} {parsed : CompilerOptions} {k : String}

theorem lookup_jsonObjectToStringMap {entries : List (String × Json)} (coherent : Coherent entries) (k : String) :
    (host.jsonObjectToStringMap entries).lookup k =
      (entries.lookup k).bind fun value => if value.isNull then none else some (host.valueToConfigString value) := by
  have shape : host.jsonObjectToStringMap entries =
      entries.filterMap fun e => (if e.2.isNull then none else some (host.valueToConfigString e.2)).map (e.1, ·) := by
    unfold jsonObjectToStringMap
    congr 1
    funext e
    split <;> rfl
  rw [shape, lookup_filterMap coherent]

theorem compilerOptions_absent
    (read : host.compilerOptions options = .ok parsed) (absent : options.lookup k = none) (other : k ≠ "pathsBasePath") :
    parsed.values k = defaultValue k ∧ (k = "paths" → parsed.pathsForValidation = []) := by
  unfold compilerOptions at read
  have unread := lookup_filterMap_none absent fun e => host.optionJsonValue e.1 e.2
  generalize (options.filterMap fun e => (host.optionJsonValue e.1 e.2).map (e.1, ·)) = json at read unread
  obtain ⟨values, done, rest⟩ := Outcome.bind_eq_ok read
  have value : values k = defaultValue k := by
    have unchanged : (json.map fun e => if e.1 = "paths" then (e.1, compilerOptionsPathsJsonValue e.2) else e).lookup k = none := by
      rw [lookup_eq_none_iff] at unread ⊢
      intro e member
      obtain ⟨e', there, rfl⟩ := mem_map.mp member
      have here := unread e' there
      split
      · exact here
      · exact here
    unfold fromValue at done
    split at done
    · cases done
      change (readFieldOf _ k).getD (defaultValue k) = _
      unfold readFieldOf
      rw [unchanged]
      rfl
    · cases done
  cases based : options.lookup "pathsBasePath" with
  | none =>
    rw [based] at rest
    cases rest
    refine ⟨value, fun same => ?_⟩
    subst same
    simp [unread, pathsForValidation]
  | some base =>
    rw [based] at rest
    cases rest
    refine ⟨?_, fun same => ?_⟩
    · rw [values_set, if_neg other]
      exact value
    · subst same
      simp [unread, pathsForValidation, CompilerOptions.set]

theorem compilerOptions_typeRoots
    (read : host.compilerOptions options = .ok parsed) : parsed.typeRootsConfigured = (options.lookup "typeRoots").isSome := by
  obtain ⟨values, -, rest⟩ := Outcome.bind_eq_ok read
  have built := Outcome.ok.inj rest
  split at built
  · rw [← built]
    rfl
  · rw [← built]

def isGiven (raw : Json) (name : String) : Bool := ((compilerOptionsOf raw).bind (·.lookup name)).any fun value => !value.isNull

theorem isGiven_eq (raw : Json) (name : String) : isGiven raw name = (isMentioned raw name && !isNullOption raw name) := by
  unfold isGiven isMentioned isNullOption
  cases (compilerOptionsOf raw).bind (·.lookup name) with
  | none => rfl
  | some value => simp

theorem mergeCompilerOptions_none (base overrides : CompilerOptions) :
    mergeCompilerOptions base overrides none = mergeCompilerOptions base overrides (some .null) := rfl

theorem quiet_null (options : CompilerOptions) : Quiet options .null := ⟨fun no => (by cases no), fun no => (by cases no)⟩

theorem values_getDefault (configFileName : Text) (other : k ∉ ["allowJs", "maxNodeModuleJsDepth", "skipLibCheck", "noEmit"]) :
    (getDefaultCompilerOptions configFileName).values k = defaultValue k := by
  unfold getDefaultCompilerOptions
  split
  · simp only [mem_cons, not_mem_nil, or_false, not_or] at other
    simp [values_set, other, CompilerOptions.default]
  · rfl

theorem getDefault_rest (configFileName : Text) : (getDefaultCompilerOptions configFileName).typeRootsConfigured = false ∧
    (getDefaultCompilerOptions configFileName).pathsForValidation = [] := by
  unfold getDefaultCompilerOptions
  split
  · exact ⟨rfl, rfl⟩
  · exact ⟨rfl, rfl⟩

theorem values_normalize {options : CompilerOptions}
    (apart : ¬ (k ∈ pathFields ∨ k = "rootDirs" ∨ (k = "typeRoots" ∧ options.typeRootsConfigured = true))) :
    (normalizeCompilerOptionPaths options basePath).values k = options.values k := if_neg apart

theorem convert_absent {options : CompilerOptions}
    (done : host.convertCompilerOptionsFromJsonWorker (json.get "compilerOptions") basePath configFileName = .ok options) :
    (isGiven json "charset" = false → options.values "charset" = defaultValue "charset") ∧
    options.typeRootsConfigured = isGiven json "typeRoots" ∧
    (isGiven json "paths" = false → options.pathsForValidation = []) := by
  obtain ⟨before, converted, rest⟩ := Outcome.bind_eq_ok done
  have last : options.typeRootsConfigured = before.typeRootsConfigured ∧ options.pathsForValidation = before.pathsForValidation ∧
      options.values "charset" = before.values "charset" := by
    cases rest
    split
    · exact ⟨rfl, rfl, by rw [values_set, if_neg (by decide)]⟩
    · exact ⟨rfl, rfl, rfl⟩
  rw [last.1, last.2.1, last.2.2]
  obtain ⟨unconfigured, valid⟩ := getDefault_rest configFileName
  have charset := values_getDefault configFileName (show "charset" ∉ ["allowJs", "maxNodeModuleJsDepth", "skipLibCheck", "noEmit"] by decide)
  cases object : (json.get "compilerOptions").bind Json.asObject with
  | none =>
    rw [object] at converted
    cases converted
    refine ⟨fun _ => charset, unconfigured.trans ?_, fun _ => valid⟩
    change false = Option.any _ (((json.get "compilerOptions").bind Json.asObject).bind (·.lookup "typeRoots"))
    rw [object]
    rfl
  | some entries =>
    rw [object] at converted
    obtain ⟨parsed, read, merged⟩ := Outcome.bind_eq_ok converted
    cases merged
    have coherent : Coherent entries := by
      obtain ⟨value, -, here⟩ := Option.bind_eq_some_iff.mp object
      exact Json.asObject_coherent here
    have given (k : String) : ((host.jsonObjectToStringMap entries).lookup k).isSome = isGiven json k := by
      rw [lookup_jsonObjectToStringMap coherent]
      change _ = Option.any _ (((json.get "compilerOptions").bind Json.asObject).bind (·.lookup k))
      rw [object, Option.bind_some]
      cases entries.lookup k with
      | none => rfl
      | some value => cases null : value.isNull <;> simp [null]
    have absent (k : String) (ungiven : isGiven json k = false) : (host.jsonObjectToStringMap entries).lookup k = none := by
      rw [← given k] at ungiven
      exact Option.not_isSome_iff_eq_none.mp (by simp [ungiven])
    refine ⟨fun ungiven => ?_, ?_, fun ungiven => ?_⟩
    · obtain ⟨value, -⟩ := compilerOptions_absent read (absent "charset" ungiven) (by decide)
      have apart : ¬ ("charset" ∈ pathFields ∨ "charset" = "rootDirs" ∨ ("charset" = "typeRoots" ∧
          (mergeCompilerOptions (getDefaultCompilerOptions configFileName) parsed none).typeRootsConfigured = true)) := by
        simp [pathFields]
      rw [values_normalize apart, mergeCompilerOptions_none, merge_value (quiet_null parsed) (by decide)]
      change (if honours parsed "charset" then parsed.values "charset" else _) = _
      rw [value, charset, ite_self]
    · rw [← given "typeRoots", ← compilerOptions_typeRoots read]
      exact merge_typeRootsConfigured _ _ _
    · have unread := (compilerOptions_absent read (absent "paths" ungiven) (by decide)).2 rfl
      refine (merge_pathsForValidation _ _ _).trans ?_
      rw [unread, valid, ite_self]

structure Own (json : Json) (own : ParsedTsconfig) : Prop where
  raw : own.raw = json
  quiet : Quiet own.options json
  typeRoots : own.options.typeRootsConfigured = isGiven json "typeRoots"
  paths : own.options.pathsForValidation ≠ [] → isMentioned json "paths" = true
  object : own.extendedConfigPath ≠ [] → json.asObject.isSome

theorem ownConfig_own (done : host.ownConfig json basePath configFileName = .ok own) : Own json own := by
  obtain ⟨parsed, parse, rest⟩ := Outcome.bind_eq_ok done
  obtain ⟨options, converted, built⟩ := Outcome.bind_eq_ok parse
  obtain ⟨charset, typeRoots, paths⟩ := convert_absent converted
  have shape : own.raw = json ∧ own.options.values "charset" = options.values "charset" ∧
      own.options.typeRootsConfigured = options.typeRootsConfigured ∧
      own.options.pathsForValidation = options.pathsForValidation ∧ own.extendedConfigPath = parsed.extendedConfigPath := by
    have plain : parsed.raw = json ∧ parsed.options = options := by
      cases built
      exact ⟨rfl, rfl⟩
    rw [← plain.2]
    have same := Outcome.ok.inj rest
    split at same
    · subst same
      exact ⟨plain.1, by rw [values_set, if_neg (by decide)], rfl, rfl, rfl⟩
    · subst same
      exact ⟨plain.1, rfl, rfl, rfl, rfl⟩
  obtain ⟨raw, sameCharset, sameTypeRoots, samePaths, sameExtends⟩ := shape
  refine ⟨raw, ⟨fun null => ?_, fun null => ?_⟩, sameTypeRoots.trans typeRoots, fun invalid => ?_, fun extends_ => ?_⟩
  · rw [sameTypeRoots, typeRoots, isGiven_eq, null, Bool.not_true, Bool.and_false]
  · rw [sameCharset]
    exact charset (by rw [isGiven_eq, null, Bool.not_true, Bool.and_false])
  · by_contra unmentioned
    rw [samePaths] at invalid
    exact invalid (paths (by rw [isGiven_eq, Bool.not_eq_true _ |>.mp unmentioned, Bool.false_and]))
  cases found : json.get "extends" with
  | none =>
    rw [sameExtends] at extends_
    cases built
    rw [found] at extends_
    exact absurd rfl extends_
  | some value => exact Json.asObject_of_get (by rw [found]; rfl)

end Host

end TypeScriptRs.Config
