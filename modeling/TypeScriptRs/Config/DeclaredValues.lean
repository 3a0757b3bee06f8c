import TypeScriptRs.Config.OptionValues

/-! Which of the values that a config gives the options have after parsing. -/
namespace TypeScriptRs.Config
open Machine Utf8 Entries Host List

deriving instance DecidableEq for FieldType, CommandLineOptionKind

def optionsOf : CommandLineOptionKind → List String
  | .boolean => booleanOptions
  | .string => stringOptions
  | .list => listOptions
  | .enum => enumOptions
  | .number => numberOptions
  | .object => ["paths"]
  | .listOrElement => []

theorem declared_mem {name : String} {kind : CommandLineOptionKind} (declared : optionsDeclarationFor name = some kind) :
    name ∈ optionsOf kind := by
  unfold optionsDeclarationFor at declared
  repeat' split at declared
  all_goals cases declared
  · assumption
  · assumption
  · assumption
  · assumption
  · assumption
  · rename_i same
    exact mem_singleton.mpr same

theorem fields_declared :
    (∀ name ∈ booleanOptions, fieldType name = .tristate) ∧ (∀ name ∈ stringOptions, fieldType name = .text) ∧
    (∀ name ∈ listOptions, name ∈ fieldNames → fieldType name = .texts) ∧
    (∀ name ∈ enumOptions, name ∈ fieldNames → fieldType name = .kind) ∧ (∀ name ∈ numberOptions, fieldType name = .size) ∧
    fieldType "paths" = .paths ∧ "plugins" ∉ fieldNames ∧ (∀ name ∈ numberOptions, name ∉ filePathOptions) := by
  decide +kernel

theorem boolean_field : ∀ name ∈ booleanOptions, fieldType name = .tristate := fields_declared.1

theorem string_field : ∀ name ∈ stringOptions, fieldType name = .text := fields_declared.2.1

theorem list_field : ∀ name ∈ listOptions, name ∈ fieldNames → fieldType name = .texts := fields_declared.2.2.1

theorem enum_field : ∀ name ∈ enumOptions, name ∈ fieldNames → fieldType name = .kind := fields_declared.2.2.2.1

theorem special_declared : (optionsDeclarationFor "build" = none ∧ optionsDeclarationFor "allowNonTsExtensions" = none ∧
      optionsDeclarationFor "pathsBasePath" = none ∧ optionsDeclarationFor "configFilePath" = none) ∧
    optionsDeclarationFor "paths" = some .object ∧ optionsDeclarationFor "pprofDir" = some .string ∧
    optionsDeclarationFor "allowJs" = some .boolean ∧ optionsDeclarationFor "maxNodeModuleJsDepth" = some .number ∧
    optionsDeclarationFor "skipLibCheck" = some .boolean ∧ optionsDeclarationFor "noEmit" = some .boolean := by
  decide +kernel

theorem undeclared_special : optionsDeclarationFor "build" = none ∧ optionsDeclarationFor "allowNonTsExtensions" = none ∧
    optionsDeclarationFor "pathsBasePath" = none ∧ optionsDeclarationFor "configFilePath" = none := special_declared.1

theorem paths_declared : optionsDeclarationFor "paths" = some .object := special_declared.2.1

theorem pprofDir_declared : optionsDeclarationFor "pprofDir" = some .string := special_declared.2.2.1

theorem ne_of_kind {name other : String} {kind kind' : CommandLineOptionKind} (declared : optionsDeclarationFor name = some kind)
    (declared' : optionsDeclarationFor other = some kind') (apart : kind ≠ kind') : name ≠ other := by
  rintro rfl
  exact apart (Option.some.inj (declared.symm.trans declared'))

section
variable (numbers : Numbers)

/-- What the JSON of an expression can be: its numbers are shown as they are read, its objects have each key once. -/
def Converted : Json → Prop
  | .num _ => False
  | .float digits => ∃ text, numbers.shown text = some digits
  | .object entries => (entries.map (·.1)).Nodup
  | _ => True

variable {numbers}

theorem convertNumber_converted {text : Text} {json : Json} {errors : List SyntaxError}
    (done : numbers.convertNumber text = .ok (json, errors)) : Converted numbers json := by
  unfold Numbers.convertNumber at done
  split at done
  · rename_i digits shown
    cases done
    exact ⟨text, shown⟩
  · cases done

theorem keys_insertProperty {result : List (String × Json)} (distinct : (result.map (·.1)).Nodup) (keyText : Text) (value : Json) :
    ((Numbers.insertProperty result keyText value).map (·.1)).Nodup := by
  unfold Numbers.insertProperty
  split
  · exact distinct
  · exact nodup_insert distinct _ value

theorem values_insertProperty {P : Json → Prop} {result : List (String × Json)} (each : ∀ e ∈ result, P e.2) (keyText : Text)
    {value : Json} (now : P value) : ∀ e ∈ Numbers.insertProperty result keyText value, P e.2 := by
  intro e member
  unfold Numbers.insertProperty at member
  split at member
  · exact each e member
  · rcases mem_insert member with rfl | old
    · exact now
    · exact each e old

mutual

theorem convert_converted {json : Json} {errors : List SyntaxError} : ∀ expr : Expr,
    numbers.convertPropertyValueToJson expr = .ok (json, errors) → Converted numbers json
  | .trueKeyword, done => by cases done; trivial
  | .falseKeyword, done => by cases done; trivial
  | .nullKeyword, done => by cases done; trivial
  | .stringLiteral _, done => by cases done; trivial
  | .numericLiteral _, done => convertNumber_converted done
  | .minus _, done => convertNumber_converted done
  | .other, done => by cases done; trivial
  | .arrayLiteral elements, done => by
    obtain ⟨converted, _, same⟩ := Outcome.bind_eq_ok done
    cases same
    trivial
  | .objectLiteral properties, done => by
    obtain ⟨⟨entries, _⟩, converted, same⟩ := Outcome.bind_eq_ok done
    cases same
    exact (convertProperties_converted properties [] [] converted nodup_nil (by simp)).1

theorem convertProperties_converted {entries : List (String × Json)} {errors' : List SyntaxError} : ∀ (properties : Properties)
    (result : List (String × Json)) (errors : List SyntaxError), numbers.convertProperties properties result errors = .ok (entries, errors') →
    (result.map (·.1)).Nodup → (∀ e ∈ result, Converted numbers e.2) →
    (entries.map (·.1)).Nodup ∧ ∀ e ∈ entries, Converted numbers e.2
  | .none, result, errors, done, distinct, converted => by
    cases done
    exact ⟨distinct, converted⟩
  | .other rest, result, errors, done, distinct, converted =>
    convertProperties_converted rest result _ done distinct converted
  | .bare _ keyText rest, result, errors, done, distinct, converted =>
    convertProperties_converted rest _ _ done (keys_insertProperty distinct keyText _)
      (values_insertProperty converted keyText trivial)
  | .assignment _ keyText initializer rest, result, errors, done, distinct, converted => by
    obtain ⟨⟨value, _⟩, first, more⟩ := Outcome.bind_eq_ok done
    exact convertProperties_converted rest _ _ more (keys_insertProperty distinct keyText _)
      (values_insertProperty converted keyText (convert_converted initializer first))
end

end

def Textual : Json → Prop
  | .array values => ∃ texts : List Text, values = texts.map .text
  | .object table => ∀ e ∈ table, (texts e.2).isSome
  | _ => False

/-- A host with the declared options, and a JSON library that reads back what it writes of the values of a config. -/
structure Standard (host : Host) (entries : List (String × Json)) : Prop where
  declared : host.optionsDeclarationFor = optionsDeclarationFor
  enums : host.commandLineOptionEnumMap = commandLineOptionEnumMap
  null : host.fromStr "null".toList = some .null
  reads : ∀ name value, entries.lookup name = some value → Textual value → host.fromStr (host.toText value) = some value

/-- The text of a number that comes from a floating point value has a fraction or an exponent. -/
def Numbers.Floats (numbers : Numbers) : Prop := ∀ text digits, numbers.shown text = some digits → '.' ∈ digits ∨ 'e' ∈ digits

/-- The entry of a name in an enumeration, whatever the case of its letters. -/
def enumEntry (entries : List (String × String)) (text : Text) : Option String := entries.lookup (String.ofList (toAsciiLowercase text))

/-- A value is of the kind of an option: the names of an enumeration are among its names. -/
def OfKind (name : String) : CommandLineOptionKind → Json → Prop
  | .boolean, .bool _ => True
  | .string, .text _ => True
  | .number, .float _ => True
  | .object, .object _ => True
  | .enum, .text text => ∀ entries, enumEntries name = some entries → (enumEntry entries text).isSome
  | .list, .array values => name = "plugins" ∨ ∃ texts : List Text, values = texts.map .text ∧
      ∀ entries, enumEntries name = some entries → ∀ text ∈ texts, (enumEntry entries (trim text)).isSome
  | _, _ => False

def WellTyped (entries : List (String × Json)) : Prop :=
  ∀ name value, entries.lookup name = some value → ∃ kind, optionsDeclarationFor name = some kind ∧ OfKind name kind value

def elementText (name : String) (text : Text) : Option Text :=
  match enumEntries name with
  | none => some text
  | some entries => (enumEntry entries (trim text)).map String.toList

/-- What the field of an option should hold for a value of its kind. -/
def declaredValue (numbers : Numbers) (name : String) (value : Json) : Option FieldValue :=
  match optionsDeclarationFor name, value with
  | some .boolean, .bool value => some (.tristate (some value))
  | some .string, .text text => some (.text text)
  | some .number, .float digits => (numbers.value digits).map fun n => .size (some n)
  | some .object, .object entries => (entries.mapM fun e => (texts e.2).map (e.1, ·)).map .paths
  | some .enum, .text text =>
    (((enumEntries name).bind fun entries => enumEntry entries text).bind (enumConstant name)).map .kind
  | some .list, .array values => ((values.mapM Json.asText).bind fun texts => texts.mapM (elementText name)).map .texts
  | _, _ => none

def absolute (basePath : Text) (name : String) (value : FieldValue) : FieldValue :=
  if name ∈ filePathOptions then normalizeFieldPaths basePath value else value

def Survive (host : Host) (numbers : Numbers) (entries : List (String × Json)) (basePath configFileName : Text) : Prop :=
  ∃ options, host.convertCompilerOptionsFromJsonWorker (some (.object entries)) basePath configFileName = .ok options ∧
    ∀ name value, entries.lookup name = some value → name ∈ fieldNames →
      ∃ v, declaredValue numbers name value = some v ∧ options.values name = absolute basePath name v

/-- A number is the one that the option has by default; `pprofDir` is absolute; the values of `paths` are lists of texts. -/
def Retained (numbers : Numbers) (basePath configFileName : Text) (name : String) (value : Json) : Prop :=
  match optionsDeclarationFor name, value with
  | some .number, .float digits =>
    ∃ n, numbers.value digits = some n ∧ (getDefaultCompilerOptions configFileName).values name = .size (some n)
  | some .string, .text text => name = "pprofDir" → normalizeCompilerOptionPath basePath text = text
  | some .object, .object entries => ∀ e ∈ entries, (texts e.2).isSome
  | _, _ => True

section
variable {host : Host} {entries : List (String × Json)} (standard : Standard host entries) {name : String}

include standard in
theorem optionJson_declared {kind : CommandLineOptionKind} (declared : optionsDeclarationFor name = some kind) {value : Json}
    (found : entries.lookup name = some value) (filled : value.isNull = false) : optionJson host entries name =
      (host.compilerOptionJsonValue name (valueToConfigString host value) kind).map
        fun json => if name = "paths" then compilerOptionsPathsJsonValue json else json := by
  have special : name ≠ "build" ∧ name ≠ "allowNonTsExtensions" := by
    constructor
    · rintro rfl
      exact nomatch undeclared_special.1.symm.trans declared
    · rintro rfl
      exact nomatch undeclared_special.2.1.symm.trans declared
  unfold optionJson optionJsonValue
  rw [found, Option.bind_some, if_neg (by simp [filled]), if_neg special.1, if_neg special.2, standard.declared, declared]
  rfl

theorem parseI64_other {text : Text} {c : Char} (member : c ∈ text) (digit : c.isDigit = false) (minus : c ≠ '-') (plus : c ≠ '+') :
    parseI64 text = none := by
  have inside : c ∈ (if text.head? = some '-' ∨ text.head? = some '+' then text.tail else text) := by
    split
    · rename_i signed
      cases text with
      | nil => cases member
      | cons d rest =>
        rcases mem_cons.mp member with rfl | later
        · rcases signed with same | same
          · exact absurd (Option.some.inj same) minus
          · exact absurd (Option.some.inj same) plus
        · exact later
    · exact member
  unfold parseI64
  rw [if_pos]
  refine .inr fun all => ?_
  have := all_eq_true.mp all c inside
  rw [digit] at this
  cases this

theorem parseI64_float {digits : Text} (float : '.' ∈ digits ∨ 'e' ∈ digits) : parseI64 digits = none := by
  rcases float with member | member
  · exact parseI64_other member (by decide) (by decide) (by decide)
  · exact parseI64_other member (by decide) (by decide) (by decide)

include standard in
theorem field_boolean (declared : optionsDeclarationFor name = some .boolean) {value : Bool}
    (found : entries.lookup name = some (.bool value)) : fieldOf host entries name = some (.tristate (some value)) := by
  have other : name ≠ "paths" := ne_of_kind declared paths_declared nofun
  unfold fieldOf
  rw [optionJson_declared standard declared found rfl, boolean_field name (declared_mem declared)]
  cases value <;> simp [compilerOptionJsonValue, valueToConfigString, other] <;> rfl

include standard in
theorem field_string (declared : optionsDeclarationFor name = some .string) {text : Text}
    (found : entries.lookup name = some (.text text)) : fieldOf host entries name = some (.text text) := by
  have other : name ≠ "paths" := ne_of_kind declared paths_declared nofun
  unfold fieldOf
  rw [optionJson_declared standard declared found rfl, string_field name (declared_mem declared)]
  simp [compilerOptionJsonValue, valueToConfigString, other, readField]

include standard in
theorem field_number (declared : optionsDeclarationFor name = some .number) {digits : Text}
    (found : entries.lookup name = some (.float digits)) (float : '.' ∈ digits ∨ 'e' ∈ digits) :
    fieldOf host entries name = some (defaultValue name) := by
  unfold fieldOf
  rw [optionJson_declared standard declared found rfl]
  simp [compilerOptionJsonValue, valueToConfigString, parseI64_float float]

include standard in
theorem written_ne_null {value : Json} (other : value.isNull = false) (reads : host.fromStr (host.toText value) = some value) :
    host.toText value ≠ "null".toList := by
  intro same
  rw [same, standard.null] at reads
  cases reads
  cases other

theorem texts_array (values : List Text) : texts (.array (values.map .text)) = some values := by
  change (values.map Json.text).mapM Json.asText = some values
  induction values with
  | nil => rfl
  | cons text rest ih =>
    rw [map_cons, mapM_cons, ih]
    rfl

theorem enumEntries_named {table : List (String × String)} (known : enumEntries name = some table) : table.lookup "" = none := by
  unfold enumEntries at known
  split at known
  all_goals cases known
  all_goals decide +kernel

theorem elements_of_names {table : List (String × String)} (known : enumEntries name = some table) {values : List Text}
    (named : ∀ text ∈ values, (enumEntry table (trim text)).isSome) :
    ∃ elements, values.mapM (elementText name) = some elements ∧
      (values.map Json.text).filterMap (enumElement fun key => (table.lookup (String.ofList key)).map fun value => .text value.toList) =
        elements.map .text := by
  induction values with
  | nil => exact ⟨[], rfl, rfl⟩
  | cons text rest ih =>
    obtain ⟨elements, read, same⟩ := ih fun text member => named text (mem_cons_of_mem _ member)
    obtain ⟨value, entry⟩ := Option.isSome_iff_exists.mp (named text mem_cons_self)
    have element : elementText name text = some value.toList := by
      simp [elementText, known, entry]
    have filled : toAsciiLowercase (trim text) ≠ [] := by
      intro empty
      rw [enumEntry, empty] at entry
      exact nomatch (enumEntries_named known).symm.trans entry
    refine ⟨value.toList :: elements, ?_, ?_⟩
    · rw [mapM_cons, element, read]
      rfl
    have here : enumElement (fun key => (table.lookup (String.ofList key)).map fun value => .text value.toList) (.text text) =
        some (.text value.toList) := by
      rw [enumElement, if_neg filled]
      unfold enumEntry at entry
      rw [entry]
      rfl
    rw [map_cons, filterMap_cons, here, same]
    rfl

include standard in
theorem list_value {values : List Text}
    (reads : host.fromStr (host.toText (.array (values.map .text))) = some (.array (values.map .text)))
    (known : ∀ table, enumEntries name = some table → ∀ text ∈ values, (enumEntry table (trim text)).isSome) :
    ∃ elements, values.mapM (elementText name) = some elements ∧
      host.compilerOptionJsonValue name (host.toText (.array (values.map .text))) .list = some (.array (elements.map .text)) := by
  simp only [compilerOptionJsonValue, if_neg (written_ne_null standard rfl reads), parseListValue, reads, standard.enums,
    commandLineOptionEnumMap]
  cases table : enumEntries name with
  | none =>
    refine ⟨values, ?_, rfl⟩
    have plain : elementText name = fun text => pure (id text) := by
      funext text
      simp [elementText, table]
    rw [plain, mapM_pure, map_id]
    rfl
  | some table' =>
    obtain ⟨elements, read, same⟩ := elements_of_names table (known table' table)
    refine ⟨elements, read, ?_⟩
    rw [Option.map_some]
    simp only [same]

include standard in
theorem field_list (declared : optionsDeclarationFor name = some .list) (field : name ∈ fieldNames) {values : List Text}
    (found : entries.lookup name = some (.array (values.map .text)))
    (known : ∀ table, enumEntries name = some table → ∀ text ∈ values, (enumEntry table (trim text)).isSome) :
    ∃ elements, values.mapM (elementText name) = some elements ∧ fieldOf host entries name = some (.texts elements) := by
  have other : name ≠ "paths" := ne_of_kind declared paths_declared nofun
  obtain ⟨elements, read, written⟩ := list_value standard (standard.reads name _ found ⟨values, rfl⟩) known
  refine ⟨elements, read, ?_⟩
  have json : optionJson host entries name = some (.array (elements.map .text)) := by
    rw [optionJson_declared standard declared found rfl]
    change Option.map _ (host.compilerOptionJsonValue name (host.toText _) .list) = _
    rw [written, Option.map_some, if_neg other]
  rw [fieldOf, json, list_field name (declared_mem declared) field]
  change (texts (.array (elements.map .text))).map FieldValue.texts = _
  rw [texts_array]
  rfl

/-- A name of an enumeration has a letter, and the number of what it stands for. -/
def namesNumber (name : String) (entry : String × String) : Bool :=
  entry.1.toList.any Char.isAlpha &&
    match enumConstant name entry.2, coreEnumOptionJsonValue name entry.1.toList with
    | some n, some (.num m) => n = m && -2 ^ 31 ≤ n && n < 2 ^ 31
    | _, _ => false

theorem enum_table : ∀ name ∈ enumOptions, name ∈ fieldNames → (enumEntries name).any (·.all (namesNumber name)) := by
  decide +kernel

theorem core_lowercase (text : Text) : coreEnumOptionJsonValue name (toAsciiLowercase text) = coreEnumOptionJsonValue name text := by
  have again : toAsciiLowercase (toAsciiLowercase text) = toAsciiLowercase text := by
    simp [toAsciiLowercase, toLower_toLower]
  unfold coreEnumOptionJsonValue
  rw [again]

theorem parseI64_letter {text : Text} (letter : (toAsciiLowercase text).any Char.isAlpha) : parseI64 text = none := by
  obtain ⟨c, member, alpha⟩ := any_eq_true.mp letter
  obtain ⟨d, there, rfl⟩ := mem_map.mp member
  have alpha := isAlpha_of_toLower alpha
  apply parseI64_other there
  · exact not_digit_of_alpha alpha
  · rintro rfl
    exact absurd alpha (by decide)
  · rintro rfl
    exact absurd alpha (by decide)

include standard in
theorem field_enum (declared : optionsDeclarationFor name = some .enum) (field : name ∈ fieldNames) {text : Text}
    (found : entries.lookup name = some (.text text))
    (known : ∀ table, enumEntries name = some table → (enumEntry table text).isSome) :
    ∃ n, ((enumEntries name).bind fun table => enumEntry table text).bind (enumConstant name) = some n ∧
      fieldOf host entries name = some (.kind n) := by
  have other : name ≠ "paths" := ne_of_kind declared paths_declared nofun
  have numbered := enum_table name (declared_mem declared) field
  cases table : enumEntries name with
  | none =>
    rw [table] at numbered
    cases numbered
  | some entries' =>
    obtain ⟨constant, entry⟩ := Option.isSome_iff_exists.mp (known entries' table)
    rw [table, Option.any_some, all_eq_true] at numbered
    have names := numbered _ (mem_of_lookup entry)
    unfold namesNumber at names
    simp only [String.toList_ofList, core_lowercase, Bool.and_eq_true] at names
    obtain ⟨letter, number⟩ := names
    cases stands : enumConstant name constant with
    | none =>
      rw [stands] at number
      cases number
    | some n =>
      refine ⟨n, by rw [Option.bind_some, entry, Option.bind_some, stands], ?_⟩
      cases chosen : coreEnumOptionJsonValue name text with
      | none =>
        rw [stands, chosen] at number
        cases number
      | some json =>
        cases json with
        | num m =>
          rw [stands, chosen] at number
          simp only [Bool.and_eq_true, decide_eq_true_eq] at number
          obtain ⟨⟨rfl, low⟩, high⟩ := number
          have filled : text ≠ "null".toList := by
            rintro rfl
            have unnamed : ∀ name ∈ enumOptions, coreEnumOptionJsonValue name "null".toList = none := by decide +kernel
            exact nomatch (unnamed name (declared_mem declared)).symm.trans chosen
          have json : optionJson host entries name = some (.num n) := by
            rw [optionJson_declared standard declared found rfl]
            simp only [compilerOptionJsonValue, valueToConfigString, if_neg filled, parseI64_letter letter, chosen, if_neg other]
            rfl
          rw [fieldOf, json, enum_field name (declared_mem declared) field]
          exact if_pos ⟨low, high⟩
        | _ =>
          rw [stands, chosen] at number
          cases number

theorem array_of_texts {value : Json} (list : (texts value).isSome) : ∃ values, value = .array (values.map .text) ∧ texts value = some values := by
  cases value with
  | array elements =>
    obtain ⟨values, read⟩ := Option.isSome_iff_exists.mp list
    refine ⟨values, ?_, read⟩
    congr 1
    change elements.mapM Json.asText = some values at read
    clear list
    induction elements generalizing values with
    | nil =>
      cases read
      rfl
    | cons element rest ih =>
      rw [mapM_cons] at read
      obtain ⟨text, first, more⟩ := Option.bind_eq_some_iff.mp read
      obtain ⟨later, others, same⟩ := Option.bind_eq_some_iff.mp more
      cases same
      cases element with
      | text value =>
        cases first
        rw [map_cons, ← ih later others]
      | _ => cases first
  | _ => cases list

theorem table_of_lists {table : List (String × Json)} (lists : ∀ e ∈ table, (texts e.2).isSome) :
    ∃ paths : List (String × List Text), table = paths.map (fun e => (e.1, .array (e.2.map .text))) ∧
      (table.mapM fun e => (texts e.2).map (e.1, ·)) = some paths := by
  induction table with
  | nil => exact ⟨[], rfl, rfl⟩
  | cons e rest ih =>
    obtain ⟨paths, same, read⟩ := ih fun e member => lists e (mem_cons_of_mem _ member)
    obtain ⟨values, array, here⟩ := array_of_texts (lists e mem_cons_self)
    refine ⟨(e.1, values) :: paths, ?_, ?_⟩
    · rw [map_cons, ← same, ← array]
    · rw [mapM_cons, here, read]
      rfl

theorem pathsJson_of_lists {paths : List (String × List Text)} (distinct : (paths.map (·.1)).Nodup) :
    compilerOptionsPathsJsonValue (.object (paths.map fun e => (e.1, .array (e.2.map .text)))) =
      .object (paths.map fun e => (e.1, .array (e.2.map .text))) := by
  have keys : ((paths.map fun e => (e.1, Json.array (e.2.map .text))).map (·.1)).Nodup := by
    rw [map_map]
    exact distinct
  unfold compilerOptionsPathsJsonValue
  rw [Json.asObject, Option.getD_some, distinct_of_nodup keys]
  congr 1
  clear keys distinct
  induction paths with
  | nil => rfl
  | cons e rest ih =>
    have kept : ((e.2.map Json.text).filterMap Json.asText).map Json.text = e.2.map .text := by
      have inverse : Json.asText ∘ Json.text = some := rfl
      rw [filterMap_map, inverse, filterMap_some]
    rw [map_cons, filterMap_cons]
    simp only [kept, ih]

include standard in
theorem object_value {table : List (String × Json)} (reads : host.fromStr (host.toText (.object table)) = some (.object table)) :
    host.compilerOptionJsonValue name (host.toText (.object table)) .object = some (.object table) := by
  simp only [compilerOptionJsonValue, if_neg (written_ne_null standard rfl reads), reads, Option.getD_some]

include standard in
theorem field_object (declared : optionsDeclarationFor name = some .object) {table : List (String × Json)}
    (found : entries.lookup name = some (.object table)) (distinct : (table.map (·.1)).Nodup)
    (lists : ∀ e ∈ table, (texts e.2).isSome) :
    ∃ paths, (table.mapM fun e => (texts e.2).map (e.1, ·)) = some paths ∧
      fieldOf host entries name = some (.paths paths) := by
  obtain rfl := mem_singleton.mp (declared_mem declared)
  obtain ⟨paths, rfl, read⟩ := table_of_lists lists
  have keys : (paths.map (·.1)).Nodup := by
    rw [map_map] at distinct
    exact distinct
  have json : optionJson host entries "paths" = some (.object (paths.map fun e => (e.1, .array (e.2.map .text)))) := by
    rw [optionJson_declared standard declared found rfl]
    change Option.map _ (host.compilerOptionJsonValue "paths" (host.toText _) .object) = _
    rw [object_value standard (standard.reads _ _ found lists), Option.map_some, if_pos rfl, pathsJson_of_lists keys]
  refine ⟨paths, read, ?_⟩
  have type : fieldType "paths" = .paths := fields_declared.2.2.2.2.2.1
  rw [fieldOf, json, type]
  change ((paths.map fun e => (e.1, Json.array (e.2.map .text))).mapM fun e => (texts e.2).map (e.1, ·)).map FieldValue.paths = _
  rw [read]
  rfl
end

section
variable {host : Host} {numbers : Numbers} {entries : List (String × Json)} {basePath configFileName : Text} {name : String}

theorem absolute_eq (other : name ≠ "pprofDir") (v : FieldValue) : normalizedField basePath name v = absolute basePath name v := by
  have same : (name ∈ pathFields ∨ name = "rootDirs" ∨ name = "typeRoots") ↔ name ∈ filePathOptions := by
    simp only [pathFields, filePathOptions, mem_cons, not_mem_nil, or_false]
    tauto
  unfold normalizedField absolute
  simp only [same]

theorem given_value {v : FieldValue} (plain : v = defaultValue name → name ∉ ["allowJs", "maxNodeModuleJsDepth", "skipLibCheck", "noEmit"]) :
    (if v ≠ defaultValue name then v else (getDefaultCompilerOptions configFileName).values name) = v := by
  split
  · rfl
  · rename_i same
    have same := not_not.mp same
    rw [values_getDefault configFileName (plain same), same]

theorem not_special {kind : CommandLineOptionKind} (declared : optionsDeclarationFor name = some kind) (other : kind ≠ .boolean)
    (other' : kind ≠ .number) : name ∉ ["allowJs", "maxNodeModuleJsDepth", "skipLibCheck", "noEmit"] := by
  intro member
  simp only [mem_cons, not_mem_nil, or_false] at member
  have kinds : optionsDeclarationFor "allowJs" = some .boolean ∧ optionsDeclarationFor "maxNodeModuleJsDepth" = some .number ∧
      optionsDeclarationFor "skipLibCheck" = some .boolean ∧ optionsDeclarationFor "noEmit" = some .boolean := special_declared.2.2.2
  rcases member with same | same | same | same
  · exact ne_of_kind declared kinds.1 other same
  · exact ne_of_kind declared kinds.2.1 other' same
  · exact ne_of_kind declared kinds.2.2.1 other same
  · exact ne_of_kind declared kinds.2.2.2 other same

theorem reads_retained (standard : Standard host entries) (floats : numbers.Floats) (converted : ∀ e ∈ entries, Converted numbers e.2)
    {value : Json} (found : entries.lookup name = some value) (field : name ∈ fieldNames) {kind : CommandLineOptionKind}
    (declared : optionsDeclarationFor name = some kind) (typed : OfKind name kind value)
    (retained : Retained numbers basePath configFileName name value) :
    ∃ v w, declaredValue numbers name value = some v ∧ fieldOf host entries name = some w ∧
      normalizedField basePath name (if w ≠ defaultValue name then w else (getDefaultCompilerOptions configFileName).values name) =
        absolute basePath name v := by
  have shape := converted _ (mem_of_lookup found)
  unfold Retained at retained
  unfold declaredValue
  rw [declared] at retained ⊢
  cases kind with
  | boolean =>
    cases value with
    | bool value =>
      refine ⟨_, _, rfl, field_boolean standard declared found, ?_⟩
      have given : FieldValue.tristate (some value) ≠ defaultValue name := by
        rw [defaultValue, boolean_field name (declared_mem declared)]
        exact nofun
      rw [if_pos given, absolute_eq (ne_of_kind declared pprofDir_declared nofun)]
    | _ => cases typed
  | string =>
    cases value with
    | text text =>
      refine ⟨_, _, rfl, field_string standard declared found, ?_⟩
      rw [given_value fun _ => not_special declared (by decide) (by decide)]
      by_cases profile : name = "pprofDir"
      · subst profile
        have kept := retained rfl
        change FieldValue.text text = .text (normalizeCompilerOptionPath basePath text)
        rw [kept]
      · exact absolute_eq profile _
    | _ => cases typed
  | number =>
    cases value with
    | float digits =>
      obtain ⟨text, shown⟩ := shape
      obtain ⟨n, stands, default_⟩ := retained
      refine ⟨.size (some n), _, by simp only [stands, Option.map_some], field_number standard declared found (floats text digits shown), ?_⟩
      rw [if_neg (not_not_intro rfl), default_, absolute_eq (ne_of_kind declared pprofDir_declared nofun)]
    | _ => cases typed
  | list =>
    cases value with
    | array values =>
      have real : name ≠ "plugins" := by
        rintro rfl
        exact fields_declared.2.2.2.2.2.2.1 field
      obtain ⟨values, rfl, known⟩ := typed.resolve_left real
      obtain ⟨elements, read, here⟩ := field_list standard declared field found fun table listed => known table listed
      refine ⟨.texts elements, _, ?_, here, ?_⟩
      · have back : (values.map Json.text).mapM Json.asText = some values := texts_array values
        simp only [back, Option.bind_some, read, Option.map_some]
      · rw [given_value fun _ => not_special declared (by decide) (by decide), absolute_eq (ne_of_kind declared pprofDir_declared nofun)]
    | _ => cases typed
  | listOrElement => cases declared_mem declared
  | enum =>
    cases value with
    | text text =>
      obtain ⟨n, stands, here⟩ := field_enum standard declared field found typed
      refine ⟨.kind n, _, by simp only [stands, Option.map_some], here, ?_⟩
      rw [given_value fun _ => not_special declared (by decide) (by decide), absolute_eq (ne_of_kind declared pprofDir_declared nofun)]
    | _ => cases typed
  | object =>
    cases value with
    | object table =>
      obtain ⟨paths, read, here⟩ := field_object standard declared found shape retained
      refine ⟨.paths paths, _, by simp only [read, Option.map_some], here, ?_⟩
      rw [given_value fun _ => not_special declared (by decide) (by decide), absolute_eq (ne_of_kind declared pprofDir_declared nofun)]
    | _ => cases typed

theorem isSome_of_mapM {α β : Type} {f : α → Option β} {list : List α} {image : List β} (read : list.mapM f = some image) :
    ∀ a ∈ list, (f a).isSome := by
  induction list generalizing image with
  | nil => exact fun a member => nomatch member
  | cons a rest ih =>
    rw [mapM_cons] at read
    obtain ⟨b, first, more⟩ := Option.bind_eq_some_iff.mp read
    obtain ⟨later, others, _⟩ := Option.bind_eq_some_iff.mp more
    exact forall_mem_cons.mpr ⟨by rw [first]; rfl, ih others⟩

theorem retained_of_value (standard : Standard host entries) (floats : numbers.Floats) (converted : ∀ e ∈ entries, Converted numbers e.2)
    {value : Json} (found : entries.lookup name = some value) (field : name ∈ fieldNames) {options : CompilerOptions}
    (done : host.convertCompilerOptionsFromJsonWorker (some (.object entries)) basePath configFileName = .ok options)
    {v : FieldValue} (declares : declaredValue numbers name value = some v) (holds : options.values name = absolute basePath name v) :
    Retained numbers basePath configFileName name value := by
  have shape := converted _ (mem_of_lookup found)
  have based : name ≠ "pathsBasePath" := by
    rintro rfl
    cases declares
  have located : name ≠ "configFilePath" := by
    rintro rfl
    cases declares
  unfold Retained
  split
  · rename_i digits declared
    simp only [declaredValue, declared] at declares
    obtain ⟨n, stands, rfl⟩ := Option.map_eq_some_iff.mp declares
    obtain ⟨text, shown⟩ := shape
    have read := field_number standard declared found (floats text digits shown)
    have plain : name ≠ "pprofDir" := ne_of_kind declared pprofDir_declared nofun
    rw [convert_value done field based located read, if_neg (not_not_intro rfl), absolute_eq plain] at holds
    have unpathed : name ∉ filePathOptions := fields_declared.2.2.2.2.2.2.2 name (declared_mem declared)
    rw [absolute, absolute, if_neg unpathed, if_neg unpathed] at holds
    exact ⟨n, stands, holds⟩
  · rename_i text declared
    rintro rfl
    simp only [declaredValue, declared] at declares
    cases declares
    have read := field_string standard declared found
    rw [convert_value done field based located read, given_value fun _ => not_special declared (by decide) (by decide)] at holds
    exact (FieldValue.text.inj holds).symm
  · rename_i table declared
    simp only [declaredValue, declared] at declares
    obtain ⟨paths, read, _⟩ := Option.map_eq_some_iff.mp declares
    intro e member
    have some_ := isSome_of_mapM read e member
    rwa [Option.isSome_map] at some_
  · trivial

/-- The options of a config hold the values that it gives them when it gives no number, but the one that an option has by
default, no path for `pprofDir` that is not absolute, and under `paths` only lists of texts. -/
theorem options_survive (standard : Standard host entries) (floats : numbers.Floats) {properties : Properties} {errors : List SyntaxError}
    (converts : numbers.convertPropertyValueToJson (.objectLiteral properties) = .ok (.object entries, errors))
    (typed : WellTyped entries) : Survive host numbers entries basePath configFileName ↔
      ∀ name value, entries.lookup name = some value → name ∈ fieldNames →
        Retained numbers basePath configFileName name value := by
  have converted : ∀ e ∈ entries, Converted numbers e.2 := by
    obtain ⟨⟨entries', errors'⟩, done, same⟩ := Outcome.bind_eq_ok converts
    cases same
    exact (convertProperties_converted properties [] [] done nodup_nil (by simp)).2
  constructor
  · rintro ⟨options, done, holds⟩ name value found field
    obtain ⟨v, declares, value_⟩ := holds name value found field
    exact retained_of_value standard floats converted found field done declares value_
  intro retained
  have each (name : String) (value : Json) (found : entries.lookup name = some value) (field : name ∈ fieldNames) :
      ∃ v w, declaredValue numbers name value = some v ∧ fieldOf host entries name = some w ∧
        normalizedField basePath name
          (if w ≠ defaultValue name then w else (getDefaultCompilerOptions configFileName).values name) =
          absolute basePath name v := by
    obtain ⟨kind, declared, ofKind⟩ := typed name value found
    exact reads_retained standard floats converted found field declared ofKind (retained name value found field)
  have reads : ∀ k ∈ fieldNames, (fieldOf host entries k).isSome := by
    intro k field
    cases found : entries.lookup k with
    | some value =>
      obtain ⟨_, w, _, read, _⟩ := each k value found field
      rw [read]
      rfl
    | none =>
      unfold fieldOf optionJson
      rw [found]
      rfl
  obtain ⟨options, done⟩ := convert_returns.mpr reads
  refine ⟨options, done, ?_⟩
  intro name value found field
  obtain ⟨v, w, declares, read, same⟩ := each name value found field
  obtain ⟨kind, declared, _⟩ := typed name value found
  have based : name ≠ "pathsBasePath" := by
    rintro rfl
    exact nomatch undeclared_special.2.2.1.symm.trans declared
  have located : name ≠ "configFilePath" := by
    rintro rfl
    exact nomatch undeclared_special.2.2.2.symm.trans declared
  exact ⟨v, declares, (convert_value done field based located read).trans same⟩
end

def depthProperties : Properties :=
  .assignment true "lib".toList (.arrayLiteral (.more (.stringLiteral "DOM".toList) .none))
    (.assignment true "maxNodeModuleJsDepth".toList (.numericLiteral "2".toList) .none)

def depthEntries : List (String × Json) := [("lib", .array [.text "DOM".toList]), ("maxNodeModuleJsDepth", .float "2.0".toList)]

def depthNumbers : Numbers where
  shown text := if text = "2".toList then some "2.0".toList else none
  value digits := if digits = "2.0".toList then some 2 else none

def depthHost : Host where
  useCaseSensitiveFileNames := true
  fileExists _ := false
  readFile _ := none
  parseConfigText _ := (.object [], false)
  resolveConfig _ _ := none
  toLowercase c := [c]
  fromStr text :=
    if text = "null".toList then some .null
    else if text = "[\"DOM\"]".toList then some (.array [.text "DOM".toList])
    else none
  toText
    | .array [.text text] => '[' :: '"' :: text ++ ['"', ']']
    | _ => []
  optionsDeclarationFor := optionsDeclarationFor
  commandLineOptionEnumMap := commandLineOptionEnumMap

theorem depth_standard : Standard depthHost depthEntries where
  declared := rfl
  enums := rfl
  null := by with_unfolding_all rfl
  reads name value found textual := by
    have member := mem_of_lookup found
    simp only [depthEntries, mem_cons, not_mem_nil, or_false, Prod.mk.injEq] at member
    rcases member with ⟨rfl, rfl⟩ | ⟨rfl, rfl⟩
    · with_unfolding_all rfl
    · cases textual

theorem depth_floats : depthNumbers.Floats := by
  intro text digits shown
  change (if text = _ then _ else _) = _ at shown
  split at shown
  · cases shown
    exact .inl (by decide)
  · cases shown

theorem depth_converts : depthNumbers.convertPropertyValueToJson (.objectLiteral depthProperties) = .ok (.object depthEntries, []) := by
  with_unfolding_all rfl

theorem depth_typed : WellTyped depthEntries := by
  intro name value found
  have member := mem_of_lookup found
  simp only [depthEntries, mem_cons, not_mem_nil, or_false, Prod.mk.injEq] at member
  rcases member with ⟨rfl, rfl⟩ | ⟨rfl, rfl⟩
  · refine ⟨.list, by decide +kernel, .inr ⟨["DOM".toList], rfl, ?_⟩⟩
    intro table listed text member
    cases listed
    cases mem_singleton.mp member
    decide +kernel
  · exact ⟨.number, by decide +kernel, trivial⟩

theorem options_survive_depth : Survive depthHost depthNumbers depthEntries "/p".toList "tsconfig.json".toList ↔
    ∀ name value, depthEntries.lookup name = some value → name ∈ fieldNames →
      Retained depthNumbers "/p".toList "tsconfig.json".toList name value :=
  options_survive depth_standard depth_floats depth_converts depth_typed

/-- The depth that a config gives is lost. -/
theorem depth_lost : Standard depthHost depthEntries ∧ depthNumbers.Floats ∧
    depthNumbers.convertPropertyValueToJson (.objectLiteral depthProperties) = .ok (.object depthEntries, []) ∧
    WellTyped depthEntries ∧ ¬ Survive depthHost depthNumbers depthEntries "/p".toList "tsconfig.json".toList := by
  refine ⟨depth_standard, depth_floats, depth_converts, depth_typed, ?_⟩
  rintro ⟨options, done, holds⟩
  have found : depthEntries.lookup "maxNodeModuleJsDepth" = some (.float "2.0".toList) := by with_unfolding_all rfl
  have field : "maxNodeModuleJsDepth" ∈ fieldNames := by decide +kernel
  obtain ⟨v, declares, value⟩ := holds "maxNodeModuleJsDepth" _ found field
  have converted : ∀ e ∈ depthEntries, Converted depthNumbers e.2 := by
    intro e member
    simp only [depthEntries, mem_cons, not_mem_nil, or_false] at member
    rcases member with rfl | rfl
    · trivial
    · exact ⟨"2".toList, rfl⟩
  obtain ⟨n, _, kept⟩ := retained_of_value depth_standard depth_floats converted found field done declares value
  have unset : (getDefaultCompilerOptions "tsconfig.json".toList).values "maxNodeModuleJsDepth" = .size none := by decide +kernel
  exact nomatch unset.symm.trans kept

end TypeScriptRs.Config
