import TypeScriptRs.Config.Declarations
import TypeScriptRs.Config.Merging

/-! What becomes of the value that a config gives to an option. -/
namespace TypeScriptRs.Config
open Machine Utf8 Entries Host

section
variable {host : Host} {entries : List (String × Json)}

def optionJson (host : Host) (entries : List (String × Json)) (k : String) : Option Json :=
  (entries.lookup k).bind fun value => if value.isNull then none else
    (host.optionJsonValue k (host.valueToConfigString value)).map fun json => if k = "paths" then compilerOptionsPathsJsonValue json else json

theorem lookup_map_paths (json : List (String × Json)) (k : String) :
    (json.map fun e => if e.1 = "paths" then (e.1, compilerOptionsPathsJsonValue e.2) else e).lookup k =
      (json.lookup k).map fun value => if k = "paths" then compilerOptionsPathsJsonValue value else value := by
  induction json with
  | nil => rfl
  | cons e rest ih =>
    have key : (if e.1 = "paths" then (e.1, compilerOptionsPathsJsonValue e.2) else e).1 = e.1 := by
      split <;> rfl
    rw [List.map_cons, lookup_cons_if, lookup_cons_if, key, ih]
    by_cases here : k = e.1
    · rw [if_pos here, if_pos here]
      subst here
      split <;> rfl
    · rw [if_neg here, if_neg here]

theorem lookup_optionJson (coherent : Coherent entries) (k : String) :
    (((host.jsonObjectToStringMap entries).filterMap fun e => (host.optionJsonValue e.1 e.2).map (e.1, ·)).map
      fun e => if e.1 = "paths" then (e.1, compilerOptionsPathsJsonValue e.2) else e).lookup k = optionJson host entries k := by
  have strings : Coherent (host.jsonObjectToStringMap entries) := by
    have kept := coherent.filterMap fun e => if e.2.isNull then none else some (host.valueToConfigString e.2)
    have shape : (entries.filterMap fun e => (if e.2.isNull then none else some (host.valueToConfigString e.2)).map (e.1, ·)) =
        host.jsonObjectToStringMap entries := by
      unfold jsonObjectToStringMap
      congr 1
      funext e
      split <;> rfl
    exact shape ▸ kept
  rw [lookup_map_paths, lookup_filterMap strings, lookup_jsonObjectToStringMap coherent]
  unfold optionJson
  cases entries.lookup k with
  | none => rfl
  | some value => cases null : value.isNull <;> simp [null]

def fieldOf (host : Host) (entries : List (String × Json)) (k : String) : Option FieldValue :=
  match optionJson host entries k with
  | some json => readField (fieldType k) json
  | none => some (defaultValue k)

theorem readFieldOf_eq (coherent : Coherent entries) (k : String) :
    readFieldOf (((host.jsonObjectToStringMap entries).filterMap fun e => (host.optionJsonValue e.1 e.2).map (e.1, ·)).map
      fun e => if e.1 = "paths" then (e.1, compilerOptionsPathsJsonValue e.2) else e) k = fieldOf host entries k := by
  unfold readFieldOf fieldOf
  cases found : optionJson host entries k <;> simp only [lookup_optionJson coherent, found]

theorem compilerOptions_returns (coherent : Coherent entries) :
    (∃ parsed, host.compilerOptions (host.jsonObjectToStringMap entries) = .ok parsed) ↔
      ∀ k ∈ fieldNames, (fieldOf host entries k).isSome := by
  unfold compilerOptions fromValue
  dsimp only
  simp only [readFieldOf_eq coherent]
  constructor
  · rintro ⟨parsed, read⟩
    obtain ⟨values, done, _⟩ := Outcome.bind_eq_ok read
    split at done
    · rename_i all
      exact List.all_eq_true.mp all
    · cases done
  · intro all
    rw [if_pos (List.all_eq_true.mpr all)]
    exact ⟨_, rfl⟩

theorem compilerOptions_value (coherent : Coherent entries) {parsed : CompilerOptions}
    (read : host.compilerOptions (host.jsonObjectToStringMap entries) = .ok parsed) {k : String} (other : k ≠ "pathsBasePath") :
    parsed.values k = (fieldOf host entries k).getD (defaultValue k) := by
  unfold compilerOptions fromValue at read
  dsimp only at read
  simp only [readFieldOf_eq coherent] at read
  obtain ⟨values, done, rest⟩ := Outcome.bind_eq_ok read
  split at done
  · cases done
    have built := Outcome.ok.inj rest
    split at built
    · rw [← built, values_set, if_neg other]
    · rw [← built]
  · cases done
end

variable {host : Host} {entries : List (String × Json)} {basePath configFileName : Text}

theorem fieldOf_distinct (k : String) : fieldOf host (distinct entries) k = fieldOf host entries k := by
  unfold fieldOf optionJson
  rw [lookup_distinct]

theorem convert_returns : (∃ options, host.convertCompilerOptionsFromJsonWorker (some (.object entries)) basePath configFileName = .ok options) ↔
    ∀ k ∈ fieldNames, (fieldOf host entries k).isSome := by
  have reads := @compilerOptions_returns host _ (distinct_coherent entries)
  simp only [fieldOf_distinct] at reads
  rw [← reads]
  constructor
  · rintro ⟨options, done⟩
    obtain ⟨before, converted, _⟩ := Outcome.bind_eq_ok done
    obtain ⟨parsed, read, _⟩ := Outcome.bind_eq_ok converted
    exact ⟨parsed, read⟩
  · rintro ⟨parsed, read⟩
    unfold convertCompilerOptionsFromJsonWorker
    simp only [Option.bind_some, Json.asObject, read, Outcome.bind_ok]
    exact ⟨_, rfl⟩

/-- The field of an option after its paths have been made absolute. -/
def normalizedField (basePath : Text) (k : String) (value : FieldValue) : FieldValue :=
  if k ∈ pathFields ∨ k = "rootDirs" ∨ k = "typeRoots" then normalizeFieldPaths basePath value else value

theorem convert_value {options : CompilerOptions}
    (done : host.convertCompilerOptionsFromJsonWorker (some (.object entries)) basePath configFileName = .ok options)
    {k : String} (field : k ∈ fieldNames) (other : k ≠ "pathsBasePath") (other' : k ≠ "configFilePath")
    {value : FieldValue} (read : fieldOf host entries k = some value) :
    options.values k = normalizedField basePath k
      (if value ≠ defaultValue k then value else (getDefaultCompilerOptions configFileName).values k) := by
  obtain ⟨before, converted, rest⟩ := Outcome.bind_eq_ok done
  obtain ⟨parsed, parses, merged⟩ := Outcome.bind_eq_ok converted
  have last : options.values k = before.values k := by
    cases rest
    split
    · rw [values_set, if_neg other']
    · rfl
  have own : parsed.values k = value := by
    rw [compilerOptions_value (distinct_coherent entries) parses other, fieldOf_distinct, read, Option.getD_some]
  rw [last]
  cases merged
  have combined : (mergeCompilerOptions (getDefaultCompilerOptions configFileName) parsed none).values k =
      if value ≠ defaultValue k then value else (getDefaultCompilerOptions configFileName).values k := by
    rw [mergeCompilerOptions_none, merge_value (quiet_null parsed) field]
    change (if honours parsed k then parsed.values k else _) = _
    rw [own]
    by_cases given : value = defaultValue k
    · rw [if_neg (not_not_intro given)]
      split
      · rename_i honoured
        have special : k = "typeRoots" ∨ k = "paths" := by
          unfold honours at honoured
          rw [own] at honoured
          simp only [given, ne_eq, not_true_eq_false, decide_false, Bool.false_or, Bool.or_eq_true, Bool.and_eq_true,
            decide_eq_true_eq] at honoured
          exact honoured.imp And.left And.left
        rw [given, values_getDefault]
        rcases special with rfl | rfl <;> decide
      · rfl
    · rw [if_pos given, if_pos]
      simp [honours, own, given]
  change (if _ then _ else _) = _
  rw [combined]
  unfold normalizedField
  by_cases roots : k = "typeRoots"
  · subst roots
    cases configured : (mergeCompilerOptions (getDefaultCompilerOptions configFileName) parsed none).typeRootsConfigured with
    | true => simp
    | false =>
      have unlisted := (compilerOptions_typeRoots parses).symm.trans ((merge_typeRootsConfigured _ _ _).symm.trans configured)
      have absent := Option.isSome_eq_false_iff.mp unlisted
      have unset := (compilerOptions_absent parses (Option.isNone_iff_eq_none.mp absent) other).1
      have base := values_getDefault configFileName
        (show "typeRoots" ∉ ["allowJs", "maxNodeModuleJsDepth", "skipLibCheck", "noEmit"] by decide)
      have bare : defaultValue "typeRoots" = .texts [] := by decide
      rw [← own, unset, base, ite_self, bare]
      simp [pathFields, normalizeFieldPaths]
  · simp [roots]

end TypeScriptRs.Config
