import TypeScriptRs.Config.Trees

/-! Parsed configs have what the nearest configs give. -/
namespace TypeScriptRs.Config
open Machine Utf8 Paths Entries Preorder Option

namespace Host

variable {host : Host}

section
variable {fuel : Nat} {stack : List Text} {file : ConfigFile} {t : ConfigTree}

theorem configTree_label
    (tree : host.configTree fuel stack file = some t) : t.label = { file with basePath := normalizeSlashes file.basePath } := by
  cases fuel with
  | zero => cases tree
  | succ fuel =>
    unfold configTree at tree
    dsimp only at tree
    split at tree
    · cases tree
    split at tree
    · obtain ⟨entries, -, rfl⟩ := map_eq_some_iff.mp tree
      rfl
    · cases tree
      rfl

theorem extendWith_eq {load : Text → Outcome (Option ParsedTsconfig)} (loads : ∀ path json t, host.extendedJson path = some json →
      host.configTree fuel stack ⟨path, json, getDirectoryPath path, getBaseFileName path⟩ = some t →
      load path = (host.parsed t).bind fun config => .ok (some config))
    (skips : ∀ path, host.extendedJson path = none → load path = .ok none) (basePath : Text) {paths : List Text} :
    ∀ {ts : List ConfigTree}, (paths.filterMap fun path => (host.extendedJson path).map fun json =>
      (⟨path, json, getDirectoryPath path, getBaseFileName path⟩ : ConfigFile)).mapM (host.configTree fuel stack) = some ts →
      ∀ own result, host.extendWith load basePath paths own result = host.parsedEntries basePath ts own result := by
  induction paths with
  | nil =>
    intro ts trees own result
    cases trees
    rfl
  | cons path paths ih =>
    intro ts trees own result
    rw [List.filterMap_cons] at trees
    cases read : host.extendedJson path with
    | none =>
      rw [read] at trees
      rw [extendWith, skips path read, Outcome.bind_ok]
      exact ih trees own result
    | some json =>
      rw [read] at trees
      simp only [map_some, List.mapM_cons, pure_def, bind_eq_bind] at trees
      obtain ⟨t, first, rest⟩ := bind_eq_some_iff.mp trees
      obtain ⟨ts', later, built⟩ := bind_eq_some_iff.mp rest
      cases built
      rw [extendWith, parsedEntries, loads path json t read first]
      cases host.parsed t with
      | ok config =>
        simp only [Outcome.bind_ok, configTree_label first]
        exact ih later _ _
      | err message => rfl
      | panic message => rfl

theorem parseConfigWorker_eq (tree : host.configTree fuel stack file = some t) :
    host.parseConfigWorker fuel file.json file.basePath file.configFileName stack = host.parsed t := by
  induction fuel generalizing stack file t with
  | zero => cases tree
  | succ fuel ih =>
    unfold configTree at tree
    dsimp only at tree
    unfold parseConfigWorker
    dsimp only
    split at tree
    · cases tree
    rename_i fresh
    rw [if_neg fresh]
    split at tree
    · rename_i own parsed_
      obtain ⟨entries, trees, rfl⟩ := map_eq_some_iff.mp tree
      rw [parsed]
      rw [parsed_, Outcome.bind_ok, Outcome.bind_ok]
      split
      · rfl
      congr 1
      refine extendWith_eq (fun path json t read below => ?_) (fun path skipped => ?_) _ trees _ _
      · rw [read]
        dsimp only
        rw [ih below]
      · rw [skipped]
    · rename_i failed
      cases tree
      rw [parsed]
      cases result : host.ownConfig file.json (normalizeSlashes file.basePath) file.configFileName with
      | ok own => exact absurd result (failed own)
      | err message => rfl
      | panic message => rfl

theorem mem_of_mapM {α β : Type} {f : α → Option β} {l : List α} : ∀ {l' : List β}, l.mapM f = some l' → ∀ b ∈ l', ∃ a ∈ l, f a = some b := by
  induction l with
  | nil =>
    intro l' all b member
    cases all
    cases member
  | cons a l ih =>
    intro l' all b member
    simp only [List.mapM_cons, pure_def, bind_eq_bind] at all
    obtain ⟨first, here, rest⟩ := bind_eq_some_iff.mp all
    obtain ⟨others, later, built⟩ := bind_eq_some_iff.mp rest
    cases built
    rcases List.mem_cons.mp member with rfl | there
    · exact ⟨a, List.mem_cons_self, here⟩
    · obtain ⟨a', inside, image⟩ := ih later b there
      exact ⟨a', List.mem_cons_of_mem a inside, image⟩

theorem configTree_subtrees (tree : host.configTree fuel stack file = some t) :
    ∀ s ∈ t.subtrees, ∃ fuel stack file, host.configTree fuel stack file = some s := by
  induction fuel generalizing stack file t with
  | zero => cases tree
  | succ fuel ih =>
    intro s member
    rcases Rose.mem_subtrees.mp member with rfl | ⟨e, child, inside⟩
    · exact ⟨fuel + 1, stack, file, tree⟩
    unfold configTree at tree
    dsimp only at tree
    split at tree
    · cases tree
    split at tree
    · obtain ⟨entries, trees, rfl⟩ := map_eq_some_iff.mp tree
      obtain ⟨file', -, below⟩ := mem_of_mapM trees e child
      exact ih below s inside
    · cases tree
      cases child

theorem configTree_leaf (tree : host.configTree fuel stack file = some t) {own : ParsedTsconfig} (parsed_ : host.own t = .ok own)
    (alone : own.extendedConfigPath = []) : t.children = [] := by
  cases fuel with
  | zero => cases tree
  | succ fuel =>
    unfold configTree at tree
    dsimp only at tree
    split at tree
    · cases tree
    split at tree
    · rename_i own' parsed'
      obtain ⟨entries, trees, rfl⟩ := map_eq_some_iff.mp tree
      obtain rfl := Outcome.ok.inj (parsed'.symm.trans parsed_)
      rw [alone] at trees
      cases trees
      rfl
    · cases tree
      rfl
end

theorem get_applyExtendedProperty {raw : Json} (object : raw.asObject.isSome) (extended : Json) (path basePath : Text)
    (name k : String) : (host.applyExtendedProperty extended path basePath raw name).get k =
      if k = name then (raw.get name).or ((listOf (extended.get name)).map fun slice => .array (host.rebaseList path basePath slice))
      else raw.get k := by
  unfold applyExtendedProperty
  by_cases same : k = name
  · subst same
    cases found : raw.get k with
    | some value => simp [found]
    | none =>
      cases given : extended.get k with
      | none => simp [found, listOf]
      | some value =>
        cases value with
        | array slice => simp [Json.get_insert object, listOf]
        | _ => simp [found, listOf]
  · split
    · rfl
    · split
      · rw [Json.get_insert object, if_neg same]
      · rfl

theorem asObject_applyExtendedProperty (extended : Json) (path basePath : Text) (raw : Json) (name : String) :
    (host.applyExtendedProperty extended path basePath raw name).asObject.isSome = raw.asObject.isSome := by
  unfold applyExtendedProperty
  split
  · rfl
  · split
    · exact Json.asObject_insert raw _ _
    · rfl

theorem get_applyCompileOnSave {raw : Json} (object : raw.asObject.isSome) (extended : Json) {k : String} (other : k ≠ "compileOnSave") :
    (applyCompileOnSave extended raw).get k = raw.get k := by
  unfold applyCompileOnSave
  split
  · split
    · rw [Json.get_insert object, if_neg other]
    · rfl
  · rfl

theorem asObject_applyCompileOnSave (extended raw : Json) :
    (applyCompileOnSave extended raw).asObject.isSome = raw.asObject.isSome := by
  unfold applyCompileOnSave
  split
  · split
    · exact Json.asObject_insert raw _ _
    · rfl
  · rfl

theorem asObject_applyExtendedConfig (own extended : ParsedTsconfig) (path basePath : Text) (result : CompilerOptions) :
    (host.applyExtendedConfig own extended path basePath result).1.raw.asObject.isSome = own.raw.asObject.isSome := by
  refine (asObject_applyCompileOnSave _ _).trans ?_
  simp only [listProperties, List.foldl_cons, List.foldl_nil, asObject_applyExtendedProperty]

theorem get_applyExtendedConfig {own : ParsedTsconfig} (object : own.raw.asObject.isSome) (extended : ParsedTsconfig)
    (path basePath : Text) (result : CompilerOptions) {k : String} (other : k ≠ "compileOnSave") :
    (host.applyExtendedConfig own extended path basePath result).1.raw.get k =
      if k ∈ listProperties then
        (own.raw.get k).or ((listOf (extended.raw.get k)).map fun slice => .array (host.rebaseList path basePath slice))
      else own.raw.get k := by
  unfold applyExtendedConfig
  simp only [listProperties, List.foldl_cons, List.foldl_nil]
  have first : (host.applyExtendedProperty extended.raw path basePath own.raw "include").asObject.isSome :=
    (asObject_applyExtendedProperty _ _ _ _ _).trans object
  have second : (host.applyExtendedProperty extended.raw path basePath
      (host.applyExtendedProperty extended.raw path basePath own.raw "include") "exclude").asObject.isSome :=
    (asObject_applyExtendedProperty _ _ _ _ _).trans first
  rw [get_applyCompileOnSave ((asObject_applyExtendedProperty _ _ _ _ _).trans second) _ other,
    get_applyExtendedProperty second, get_applyExtendedProperty first, get_applyExtendedProperty first,
    get_applyExtendedProperty object, get_applyExtendedProperty object, get_applyExtendedProperty object]
  by_cases files : k = "files"
  · simp [files]
  by_cases exclude : k = "exclude"
  · simp [exclude]
  · by_cases include_ : k = "include"
    · simp [include_]
    · simp [files, exclude, include_]

theorem listOf_rebase (path basePath : Text) (value : Option Json) :
    listOf (value.map (host.rebase path basePath)) = (listOf value).map (host.rebaseList path basePath) := by
  cases value with
  | none => rfl
  | some value => cases value <;> rfl

/-- What is known of a parsed config whose options and lists are those of the nearest configs. -/
structure Knows (host : Host) (t : ConfigTree) (config : ParsedTsconfig) : Prop where
  parsed : host.parsed t = .ok config
  values : ∀ k ∈ fieldNames, config.options.values k = host.nearestValue t k
  lists : ∀ name ∈ listProperties, listOf (config.raw.get name) = listOf (host.nearestList name t)
  raw : compilerOptionsOf config.raw = compilerOptionsOf t.label.json
  quiet : Quiet config.options config.raw
  typeRoots : config.options.typeRootsConfigured = isGiven t.label.json "typeRoots"
  paths : config.options.pathsForValidation = host.invalidPaths t

theorem Knows.effect {t : ConfigTree} {config : ParsedTsconfig} (knows : Knows host t config) (result : CompilerOptions)
    {k : String} (field : k ∈ fieldNames) :
    (mergeCompilerOptions result config.options (some config.raw)).values k = (host.effect t k).getD (result.values k) := by
  have counts : honours config.options k = host.counts t k := by
    unfold honours counts
    rw [knows.values k field, knows.typeRoots, knows.paths]
    by_cases same : k = "typeRoots"
    · simp [same]
    · simp [same]
  have null : isNullOption config.raw k = isNullOption t.label.json k := by
    unfold isNullOption
    rw [knows.raw]
  rw [merge_value knows.quiet field, null, counts, Host.effect, knows.values k field]
  split
  · rfl
  · split
    · rfl
    · rfl

/-- What the entries of a config make of its options and properties. -/
structure Applied (host : Host) (basePath : Text) (ts : List ConfigTree) (own own' : ParsedTsconfig) (result result' : CompilerOptions) :
    Prop where
  options : own'.options = own.options
  extends_ : own'.extendedConfigPath = own.extendedConfigPath
  compilerOptions : compilerOptionsOf own'.raw = compilerOptionsOf own.raw
  lists : ∀ name ∈ listProperties, own'.raw.get name = (own.raw.get name).or ((host.firstList name basePath ts).map .array)
  values : ∀ k ∈ fieldNames, result'.values k = (host.lastEffect k ts).getD (result.values k)
  paths : result'.pathsForValidation = (host.invalidEntry ts).getD result.pathsForValidation

theorem parsedEntries_applied {basePath : Text} {ts : List ConfigTree} (known : ∀ e ∈ ts, ∃ config, Knows host e config) :
    ∀ {own : ParsedTsconfig} (result : CompilerOptions), own.raw.asObject.isSome →
      ∃ own' result', host.parsedEntries basePath ts own result = .ok (own', result') ∧ Applied host basePath ts own own' result result' := by
  induction ts with
  | nil =>
    intro own result object
    refine ⟨own, result, rfl, rfl, rfl, rfl, fun name _ => ?_, fun k _ => rfl, rfl⟩
    simp [firstList]
  | cons e ts ih =>
    intro own result object
    obtain ⟨config, knows⟩ := known e List.mem_cons_self
    have object' : (host.applyExtendedConfig own config e.label.path basePath result).1.raw.asObject.isSome :=
      (asObject_applyExtendedConfig _ _ _ _ _).trans object
    obtain ⟨own', result', rest, applied⟩ := ih (fun e' member => known e' (List.mem_cons_of_mem e member))
      (host.applyExtendedConfig own config e.label.path basePath result).2 object'
    refine ⟨own', result', ?_, applied.options, applied.extends_, ?_, fun name listed => ?_, fun k field => ?_, ?_⟩
    · rw [parsedEntries, knows.parsed, Outcome.bind_ok]
      exact rest
    · rw [applied.compilerOptions]
      unfold compilerOptionsOf
      rw [get_applyExtendedConfig object _ _ _ _ (by decide), if_neg (by decide)]
    · have other : name ≠ "compileOnSave" := by
        rintro rfl
        exact absurd listed (by decide)
      rw [applied.lists name listed, get_applyExtendedConfig object _ _ _ _ other, if_pos listed, knows.lists name listed, firstList,
        listOf_rebase]
      cases own.raw.get name <;> cases listOf (host.nearestList name e) <;> simp
    · rw [applied.values k field]
      change (host.lastEffect k ts).getD ((mergeCompilerOptions result config.options (some config.raw)).values k) = _
      rw [knows.effect result field, lastEffect]
      cases host.lastEffect k ts <;> simp
    rw [applied.paths]
    change (host.invalidEntry ts).getD ((mergeCompilerOptions result config.options (some config.raw)).pathsForValidation) = _
    rw [merge_pathsForValidation, invalidEntry, knows.paths]
    have specify : (honours config.options "paths" = true) ↔
        (host.nearestValue e "paths" ≠ defaultValue "paths" ∨ host.invalidPaths e ≠ []) := by
      rw [← knows.paths, ← knows.values "paths" (by decide)]
      simp [honours]
    simp only [specify]
    cases host.invalidEntry ts with
    | some paths => simp
    | none => split <;> simp

/-- What a config is parsed to, over entries whose options and lists are those of the nearest configs. -/
structure Node (host : Host) (t : ConfigTree) (own config : ParsedTsconfig) : Prop where
  parsed : host.parsed t = .ok config
  values : ∀ k ∈ fieldNames, config.options.values k =
    if own.extendedConfigPath = [] then own.options.values k
    else if isNullOption t.label.json k then defaultValue k
    else if honours own.options k then own.options.values k
    else (host.lastEffect k t.children).getD (defaultValue k)
  lists : ∀ name ∈ listProperties,
    config.raw.get name = (t.label.json.get name).or ((host.firstList name t.label.basePath t.children).map .array)
  raw : compilerOptionsOf config.raw = compilerOptionsOf t.label.json
  quiet : Quiet config.options config.raw
  typeRoots : config.options.typeRootsConfigured = isGiven t.label.json "typeRoots"
  paths : config.options.pathsForValidation = host.invalidPaths t

theorem isNullOption_congr {raw raw' : Json} (same : compilerOptionsOf raw = compilerOptionsOf raw') (k : String) :
    isNullOption raw k = isNullOption raw' k := by
  unfold isNullOption
  rw [same]

theorem parsed_node {t : ConfigTree} {own : ParsedTsconfig} (parsed_ : host.own t = .ok own)
    (leaf : own.extendedConfigPath = [] → t.children = []) (known : ∀ e ∈ t.children, ∃ config, Knows host e config) :
    ∃ config, Node host t own config := by
  obtain ⟨file, entries⟩ := t
  have here : host.ownConfig file.json file.basePath file.configFileName = .ok own := parsed_
  have facts := ownConfig_own here
  have unspecified : honours own.options "paths" = false → own.options.pathsForValidation = [] := fun silent => by
    unfold honours at silent
    simp at silent
    exact silent.2
  by_cases alone : own.extendedConfigPath = []
  · obtain rfl : entries = [] := leaf alone
    refine ⟨own, ?_, fun k field => (if_pos alone).symm, fun name listed => ?_, congrArg compilerOptionsOf facts.raw, ?_, facts.typeRoots, ?_⟩
    · rw [parsed, here, Outcome.bind_ok, if_pos alone]
    · change _ = (file.json.get name).or (Option.map _ none)
      rw [facts.raw, map_none, or_none]
    · rw [facts.raw]
      exact facts.quiet
    rw [invalidPaths, here]
    dsimp only
    split
    · rfl
    · rename_i silent
      exact unspecified (Bool.not_eq_true _ |>.mp silent)
  have object : own.raw.asObject.isSome := facts.raw.symm ▸ facts.object alone
  obtain ⟨own', result', entries_, applied⟩ : ∃ own' result', host.parsedEntries file.basePath entries own .default = .ok (own', result') ∧
      Applied host file.basePath entries own own' .default result' := parsedEntries_applied known .default object
  have quiet : Quiet own.options own'.raw := by
    refine ⟨fun null => ?_, fun null => ?_⟩
    · rw [isNullOption_congr applied.compilerOptions, facts.raw] at null
      exact facts.quiet.typeRoots null
    · rw [isNullOption_congr applied.compilerOptions, facts.raw] at null
      exact facts.quiet.charset null
  have value (k : String) (field : k ∈ fieldNames) :
      (mergeCompilerOptions result' own.options (some own'.raw)).values k =
        if isNullOption file.json k then defaultValue k
        else if honours own.options k then own.options.values k else (host.lastEffect k entries).getD (defaultValue k) := by
    rw [merge_value quiet field, isNullOption_congr applied.compilerOptions, facts.raw, applied.values k field]
    rfl
  have typeRoots : (mergeCompilerOptions result' own.options (some own'.raw)).typeRootsConfigured = isGiven file.json "typeRoots" :=
    (merge_typeRootsConfigured _ _ _).trans facts.typeRoots
  refine ⟨{ own' with options := mergeCompilerOptions result' own.options (some own'.raw) }, ?_, fun k field => ?_,
    fun name listed => ?_, ?_, ⟨fun null => ?_, fun null => ?_⟩, typeRoots, ?_⟩
  · rw [parsed, here, Outcome.bind_ok, if_neg alone, entries_]
    rfl
  · rw [if_neg alone]
    exact value k field
  · refine (applied.lists name listed).trans ?_
    rw [facts.raw]
    rfl
  · exact applied.compilerOptions.trans (congrArg compilerOptionsOf facts.raw)
  · rw [isNullOption_congr applied.compilerOptions, facts.raw] at null
    rw [typeRoots, isGiven_eq]
    rw [null, Bool.not_true, Bool.and_false]
  · rw [isNullOption_congr applied.compilerOptions, facts.raw] at null
    rw [value "charset" (by decide), if_pos null]
  rw [invalidPaths, here]
  rw [merge_pathsForValidation, applied.paths]
  rfl

section
variable {t : ConfigTree} {own config : ParsedTsconfig}

theorem nearest_eq (t : ConfigTree) (k : String) : host.nearest k t = (host.givenBy t k).or (host.nearestEntry k t.children) := by
  cases t
  rfl

theorem nearestList_eq (t : ConfigTree) (name : String) : host.nearestList name t =
    (t.label.json.get name).or (host.nearestListEntry name t.label.basePath t.children) := by
  cases t
  rfl

theorem option_iff (parsed_ : host.own t = .ok own)
    (leaf : own.extendedConfigPath = [] → t.children = []) (node : Node host t own config) {k : String} (field : k ∈ fieldNames) :
    config.options.values k = host.nearestValue t k ↔ host.OptionHeeded own t k := by
  have facts := ownConfig_own parsed_
  rw [node.values k field, nearestValue, nearest_eq, givenBy, parsed_, OptionHeeded]
  dsimp only
  cases null : isNullOption t.label.json k with
  | true =>
    by_cases alone : own.extendedConfigPath = []
    · simp [alone]
    · simp [alone]
  | false =>
    -- what the config honours, it gives
    have given : honours own.options k = true → (isMentioned t.label.json k || decide (own.options.values k ≠ defaultValue k)) = true := by
      intro honoured
      unfold honours at honoured
      rw [Bool.or_eq_true, Bool.or_eq_true] at honoured
      rcases honoured with (other | typeRoots) | paths
      · rw [other, Bool.or_true]
      · obtain ⟨same, configured⟩ := Bool.and_eq_true_iff.mp typeRoots
        obtain rfl := of_decide_eq_true same
        rw [facts.typeRoots, isGiven_eq] at configured
        rw [(Bool.and_eq_true_iff.mp configured).1, Bool.true_or]
      · obtain ⟨same, invalid⟩ := Bool.and_eq_true_iff.mp paths
        obtain rfl := of_decide_eq_true same
        rw [facts.paths (by simpa using invalid), Bool.true_or]
    have silent : honours own.options k = false → own.options.values k = defaultValue k := by
      intro unheard
      unfold honours at unheard
      simp only [Bool.or_eq_false_iff, decide_eq_false_iff_not, ne_eq, not_not] at unheard
      exact unheard.1.1
    by_cases alone : own.extendedConfigPath = []
    · rw [leaf alone]
      by_cases mentioned : isMentioned t.label.json k = true
      · simp [alone, mentioned, lastEffect]
      · by_cases unset : own.options.values k = defaultValue k
        · simp [alone, mentioned, unset, lastEffect, nearestEntry]
        · simp [alone, unset, honours]
    cases honoured : honours own.options k with
    | true =>
      rw [if_neg alone, if_neg Bool.false_ne_true, if_pos rfl, if_neg Bool.false_ne_true, if_pos (given honoured)]
      simp
    | false =>
      rw [if_neg alone, if_neg Bool.false_ne_true, if_neg Bool.false_ne_true, if_neg Bool.false_ne_true, if_neg Bool.false_ne_true]
      have unset := silent honoured
      cases mentioned : isMentioned t.label.json k with
      | true => simp [unset]
      | false => simp [unset]

theorem list_iff (node : Node host t own config) {name : String} (listed : name ∈ listProperties) :
    listOf (config.raw.get name) = listOf (host.nearestList name t) ↔ host.ListHeeded t name := by
  rw [node.lists name listed, nearestList_eq, ListHeeded]
  cases t.label.json.get name with
  | some value => simp
  | none =>
    rw [none_or, none_or]
    have plain (lists : Option (List Json)) : listOf (lists.map .array) = lists := by cases lists <;> rfl
    rw [plain]
    simp

theorem nearestValue_known (node : Node host t own config)
    (values : ∀ k ∈ fieldNames, config.options.values k = host.nearestValue t k)
    (lists : ∀ name ∈ listProperties, listOf (config.raw.get name) = listOf (host.nearestList name t)) : Knows host t config :=
  ⟨node.parsed, values, lists, node.raw, node.quiet, node.typeRoots, node.paths⟩

/-- Trees all of whose configs without extended configs have no entries. -/
def Linked (host : Host) (t : ConfigTree) : Prop :=
  ∀ s ∈ t.subtrees, ∀ own, host.own s = .ok own → own.extendedConfigPath = [] → s.children = []

theorem own_of_parsed (parsed_ : host.parsed t = .ok config) : ∃ own, host.own t = .ok own := by
  cases t with
  | node file entries =>
    obtain ⟨own, result, -⟩ := Outcome.bind_eq_ok parsed_
    exact ⟨own, result⟩

theorem known_of_inherits (linked : Linked host t) (inherits : ∀ s ∈ t.subtrees, host.Inherits s) :
    ∃ config, Knows host t config := by
  induction t using Rose.induct with
  | each t ih =>
    have known (e : ConfigTree) (child : e ∈ t.children) : ∃ config, Knows host e config :=
      ih e child (fun s inside => linked s (Rose.mem_subtrees.mpr (.inr ⟨e, child, inside⟩)))
        fun s inside => inherits s (Rose.mem_subtrees.mpr (.inr ⟨e, child, inside⟩))
    obtain ⟨config, parsed_, values, lists⟩ := inherits t t.self_mem_subtrees
    obtain ⟨own, result⟩ := own_of_parsed parsed_
    obtain ⟨config', node⟩ := parsed_node result (linked t t.self_mem_subtrees own result) known
    obtain rfl := Outcome.ok.inj (parsed_.symm.trans node.parsed)
    exact ⟨config, nearestValue_known node values lists⟩

theorem inherits_iff (leaf : ∀ own, host.own t = .ok own → own.extendedConfigPath = [] → t.children = [])
    (known : ∀ e ∈ t.children, ∃ config, Knows host e config) : host.Inherits t ↔ host.Heeded t := by
  constructor
  · rintro ⟨config, parsed_, values, lists⟩
    obtain ⟨own, result⟩ := own_of_parsed parsed_
    obtain ⟨config', node⟩ := parsed_node result (leaf own result) known
    obtain rfl := Outcome.ok.inj (parsed_.symm.trans node.parsed)
    exact ⟨own, result, fun k field => (option_iff result (leaf own result) node field).mp (values k field),
      fun name listed => (list_iff node listed).mp (lists name listed)⟩
  · rintro ⟨own, result, options, lists⟩
    obtain ⟨config, node⟩ := parsed_node result (leaf own result) known
    exact ⟨config, node.parsed, fun k field => (option_iff result (leaf own result) node field).mpr (options k field),
      fun name listed => (list_iff node listed).mpr (lists name listed)⟩

/-- Parsing gives every config of a tree the options and lists of the nearest configs that give them, just when every
config of the tree heeds them. -/
theorem configuration_inherited (host : Host) (fuel : Nat) (file : ConfigFile) (t : ConfigTree)
    (tree : host.configTree fuel [] file = some t) :
    host.parseConfigWorker fuel file.json file.basePath file.configFileName [] = host.parsed t ∧
    (∀ s ∈ t.subtrees, ∃ (fuel : Nat) (stack : List Text) (file : ConfigFile),
      host.parseConfigWorker fuel file.json file.basePath file.configFileName stack = host.parsed s) ∧
    ((∀ s ∈ t.subtrees, host.Inherits s) ↔ ∀ s ∈ t.subtrees, host.Heeded s) := by
  have linked (s : ConfigTree) (member : s ∈ t.subtrees) : Linked host s := fun s' inside own result alone => by
    obtain ⟨fuel', stack', file', tree'⟩ := configTree_subtrees tree s member
    obtain ⟨fuel'', stack'', file'', tree''⟩ := configTree_subtrees tree' s' inside
    exact configTree_leaf tree'' result alone
  refine ⟨parseConfigWorker_eq tree, fun s member => ?_, Rose.forall_subtrees_iff t fun s member below => ?_⟩
  · obtain ⟨fuel', stack', file', tree'⟩ := configTree_subtrees tree s member
    exact ⟨fuel', stack', file', parseConfigWorker_eq tree'⟩
  · refine inherits_iff (linked s member s s.self_mem_subtrees) fun e child => known_of_inherits ?_ (below e child)
    exact fun s' inside => linked s member s' (Rose.mem_subtrees.mpr (.inr ⟨e, child, inside⟩))
end

def typesConfig (types : List Json) (others : List (String × Json)) : Json :=
  .object (others ++ [("compilerOptions", .object [("types", .array types)])])

/-- A base config with types, read from one file, and the JSON texts of lists of types. -/
def typesHost : Host where
  useCaseSensitiveFileNames := true
  fileExists path := path = "/p/base.json".toList
  readFile path := if path = "/p/base.json".toList then some "base".toList else none
  parseConfigText _ := (typesConfig [.text "node".toList] [], false)
  resolveConfig _ _ := none
  toLowercase c := [c.toLower]
  fromStr text :=
    if text = "[]".toList then some (.array [])
    else if text = "[\"node\"]".toList then some (.array [.text "node".toList])
    else none
  toText
    | .array [] => "[]".toList
    | _ => "[\"node\"]".toList
  optionsDeclarationFor name := if name = "types" then some .list else none
  commandLineOptionEnumMap _ := none

def withoutTypes : ConfigFile :=
  ⟨"/p/tsconfig.json".toList, typesConfig [] [("extends", .text "./base.json".toList)], "/p".toList, "tsconfig.json".toList⟩

theorem configuration_inherited_types : ∃ t, typesHost.configTree 2 [] withoutTypes = some t ∧
    typesHost.parseConfigWorker 2 withoutTypes.json withoutTypes.basePath withoutTypes.configFileName [] = typesHost.parsed t ∧
    ((∀ s ∈ t.subtrees, typesHost.Inherits s) ↔ ∀ s ∈ t.subtrees, typesHost.Heeded s) := by
  obtain ⟨t, tree⟩ : ∃ t, typesHost.configTree 2 [] withoutTypes = some t := ⟨_, rfl⟩
  obtain ⟨parse, -, iff⟩ := configuration_inherited typesHost 2 withoutTypes t tree
  exact ⟨t, tree, parse, iff⟩

/-- An empty list of types does not hide the types of the base config. -/
theorem empty_list_not_heeded : ∃ t config, typesHost.configTree 2 [] withoutTypes = some t ∧
    typesHost.parseConfigWorker 2 withoutTypes.json withoutTypes.basePath withoutTypes.configFileName [] = .ok config ∧
    config.options.values "types" = .texts ["node".toList] ∧ typesHost.nearestValue t "types" = .texts [] :=
  ⟨_, _, rfl, rfl, by decide, by decide⟩

end Host

end TypeScriptRs.Config
