import TypeScriptRs.Config.Circularity
import TypeScriptRs.Config.Inheritance
import TypeScriptRs.Paths.Rebasing

/-! Specs that configs inherit, and the patterns that they denote. -/
namespace TypeScriptRs.Config
open Machine Utf8 Paths List

namespace Host

theorem isPrefixOf_map {f g : Char → Char} {start : Text} (agree : ∀ d ∈ start, ∀ c, f c = d ↔ g c = d) (text : Text) :
    start.isPrefixOf (text.map f) = start.isPrefixOf (text.map g) := by
  induction start generalizing text with
  | nil => rfl
  | cons d start ih =>
    cases text with
    | nil => rfl
    | cons c text =>
      have rest := ih (fun e listed => agree e (mem_cons_of_mem _ listed)) text
      have here : (d == f c) = (d == g c) := by
        rw [Bool.eq_iff_iff, beq_iff_eq, beq_iff_eq, eq_comm, agree d (by simp) c, eq_comm]
      rw [map_cons, map_cons, List.isPrefixOf, List.isPrefixOf, rest, here]

theorem isPrefixOf_append {start : Text} {s : Char} (free : s ∉ start) (front back : Text) :
    start.isPrefixOf (front ++ s :: back) = start.isPrefixOf front := by
  induction start generalizing front with
  | nil => simp
  | cons d start ih =>
    cases front with
    | nil =>
      have other : d ≠ s := fun same => free (by simp [same])
      simp [List.isPrefixOf, other]
    | cons c front =>
      rw [cons_append, List.isPrefixOf, List.isPrefixOf, ih fun listed => free (mem_cons_of_mem _ listed)]

theorem startsWithConfigDirTemplate_slash (front back : Text) :
    startsWithConfigDirTemplate (front ++ '/' :: back) = startsWithConfigDirTemplate front := by
  unfold startsWithConfigDirTemplate toAsciiLowercase
  rw [map_append]
  exact isPrefixOf_append (by decide) _ _

theorem startsWithConfigDirTemplate_normalizeSlashes (path : Text) :
    startsWithConfigDirTemplate (normalizeSlashes path) = startsWithConfigDirTemplate path := by
  unfold startsWithConfigDirTemplate toAsciiLowercase normalizeSlashes
  rw [map_map]
  refine isPrefixOf_map (fun d listed c => ?_) path
  by_cases backslash : c = '\\'
  · have letters : ((List.map Char.toLower "${configDir}".toList).all fun e => e ≠ '/' && e ≠ '\\') = true := by decide
    obtain ⟨slash, backslash'⟩ : d ≠ '/' ∧ d ≠ '\\' := by simpa using all_eq_true.mp letters d listed
    subst backslash
    exact iff_of_false (fun same => slash same.symm) fun same => backslash' same.symm
  · rw [Function.comp_apply, if_neg backslash]

variable (host : Host)

/-- A spec as a config inherits it, when the last of a chain of extended configs wrote it. -/
def inheritedSpec (basePath : Text) : List Text → Text → Text
  | [], spec => spec
  | path :: chain, spec => host.rebasePath path (normalizeSlashes basePath) (inheritedSpec (getDirectoryPath path) chain spec)

def writerDirectory (basePath : Text) : List Text → Text
  | [] => basePath
  | path :: chain => writerDirectory (getDirectoryPath path) chain

def Lists (raw : Json) (property : String) (spec : Text) : Prop :=
  ∃ slice, raw.get property = some (.array slice) ∧ .text spec ∈ slice

/-- The last of a chain of configs, each extended by the one before it, has a spec in a list of its own. -/
def Wrote (property : String) (json : Json) (basePath configFileName : Text) : List Text → Text → Prop
  | [], spec => Lists json property spec
  | path :: chain, spec => path ∈ host.extendsOf json (normalizeSlashes basePath) configFileName ∧
      ∃ extended, host.extendedJson path = some extended ∧
        Wrote property extended (getDirectoryPath path) (getBaseFileName path) chain spec

def absolutePattern (spec directory : Text) : Text :=
  getCanonicalFileName host.toLowercase (getNormalizedAbsolutePath spec directory) host.useCaseSensitiveFileNames

/-- The relative path from one directory down to another, with a spec after it, would be read as absolute, or as
relative to the config that is parsed. -/
def Misleads (source target spec : Text) : Prop :=
  startsWithConfigDirTemplate target = true ∨ ∃ above component rest,
    reducedOf (normalizeSlashes target) = above ++ component :: rest ∧
    above.map (getCanonicalFileName host.toLowercase · host.useCaseSensitiveFileNames) =
      (reducedOf (normalizeSlashes source)).map (getCanonicalFileName host.toLowercase · host.useCaseSensitiveFileNames) ∧
    (RootLike component rest ∨ component = ['^'] ∧ spec ≠ [] ∨ startsWithConfigDirTemplate component = true)

/-- Some directory of a chain is misleading from the one before it. -/
def Misled (basePath : Text) : List Text → Text → Prop
  | [], _ => False
  | path :: chain, spec => Misled (getDirectoryPath path) chain spec ∨
      host.Misleads basePath (getDirectoryPath path) (host.inheritedSpec (getDirectoryPath path) chain spec)

def SameRoot (basePath : Text) (chain : List Text) : Prop := ∃ root, ∀ directory ∈ basePath :: chain.map getDirectoryPath,
  rootOf directory ≠ [] ∧ rootOf (normalizeSlashes directory) = root

section
variable {host} {source target spec : Text}

theorem combineOne_again (some_ : source ≠ []) (fileName : Text) :
    getNormalizedAbsolutePath fileName (normalizeSlashes source) = getNormalizedAbsolutePath fileName source := by
  have again := normalizeSlashes_of_slashed (slashed_normalizeSlashes source)
  have some' : normalizeSlashes source ≠ [] := mt map_eq_nil_iff.mp some_
  rw [getNormalizedAbsolutePath_eq, getNormalizedAbsolutePath_eq, absoluteFileName_combineOne some_,
    absoluteFileName_combineOne some', again]

theorem getNormalizedAbsolutePath_rooted (some_ : source ≠ []) (rooted : rootOf (normalizeSlashes spec) ≠ []) :
    getNormalizedAbsolutePath spec source = normalized (normalizeSlashes spec) := by
  rw [getNormalizedAbsolutePath_eq, absoluteFileName_combineOne some_, combineOne_rooted rooted]

/-- What a spec becomes after joined components starts with the template only if it or the first component does. -/
theorem startsWithConfigDirTemplate_combineOne {front : Text} (plain : startsWithConfigDirTemplate front = false)
    (plain' : startsWithConfigDirTemplate spec = false) (slashed : Slashed front) :
    startsWithConfigDirTemplate (combineOne front spec) = false := by
  have after := (startsWithConfigDirTemplate_normalizeSlashes spec).trans plain'
  unfold combineOne
  split
  · exact plain
  dsimp only
  split
  · exact after
  split
  · rename_i trailing
    obtain ⟨start, last, rfl⟩ := (eq_nil_or_concat' front).resolve_left (by rintro rfl; cases trailing)
    have slash : last = '/' := by
      unfold hasTrailingDirectorySeparator at trailing
      rw [List.getLast?_concat] at trailing
      rcases Bool.or_eq_true_iff.mp trailing with slash | backslash
      · exact of_decide_eq_true slash
      · exact absurd (by rw [of_decide_eq_true backslash]; simp) slashed
    rw [slash] at plain ⊢
    rw [startsWithConfigDirTemplate_slash] at plain
    rw [append_assoc, singleton_append, startsWithConfigDirTemplate_slash, plain]
  · rw [append_assoc, singleton_append, startsWithConfigDirTemplate_slash, plain]

theorem startsWithConfigDirTemplate_join (component : Text) (rest : List Text) :
    startsWithConfigDirTemplate (join (component :: rest)) = startsWithConfigDirTemplate component := by
  by_cases none : rest = []
  · rw [none]
    exact congrArg startsWithConfigDirTemplate intercalate_singleton
  · rw [join_cons component none, startsWithConfigDirTemplate_slash]

variable {path : Text}

theorem rootOf_combineOne_url (url : (findScheme source).isSome = true) (slashed : Slashed source) (spec : Text) :
    rootOf (normalizeSlashes (combineOne source spec)) ≠ [] := by
  rw [normalizeSlashes_of_slashed (slashed_combineOne slashed)]
  obtain ⟨⟨scheme, rest⟩, found⟩ := Option.isSome_iff_exists.mp url
  have shape := findScheme_eq found
  have more (other : Text) : rootOf (source ++ other) ≠ [] := by
    refine rootOf_ne_nil_of_scheme ?_
    rw [shape, append_assoc, findScheme_append (shape ▸ found)]
    rfl
  have bare := more []
  rw [append_nil] at bare
  unfold combineOne
  split
  · exact bare
  dsimp only
  split
  · rename_i rooted
    refine fun none => rooted.elim (fun empty => ?_) fun length => length ?_
    · rw [empty] at url
      cases url
    · rw [getRootLength_eq, none, bytes_nil]
  · split
    · exact more _
    · rw [append_assoc]
      exact more _

theorem findScheme_url (rooted : rootOf source ≠ []) (url : ¬0 < getEncodedRootLength source) :
    (findScheme source).isSome = true := by
  by_contra found
  have none : findScheme source = none := by simpa using found
  have plain : urlRootOf source = ([], false) := by
    unfold urlRootOf
    rw [none]
  have onDisk : (encodedRoot source).2 = false := by
    match source with
    | [] => rfl
    | [c] =>
      have one : encodedRoot [c] = if isAnyDirectorySeparator c then ([c], false) else ([], false) := rfl
      rw [one]
      split <;> rfl
    | c :: d :: rest =>
      rw [encodedRoot_two, plain]
      repeat' split
      all_goals first | rfl | rw [plain]
  refine url ?_
  unfold getEncodedRootLength
  rw [onDisk]
  exact Int.natCast_pos.mpr (bytes_pos rooted)

theorem relative_plain {above up above' down : List Text}
    (fromShape : reducedOf (normalizeSlashes source) = above ++ up) (toShape : reducedOf (normalizeSlashes target) = above' ++ down)
    (keys : above.map (getCanonicalFileName host.toLowercase · host.useCaseSensitiveFileNames) =
      above'.map (getCanonicalFileName host.toLowercase · host.useCaseSensitiveFileNames))
    (clear : ¬host.Misleads source target spec) (component : Text) (rest : List Text)
    (shape : List.replicate up.length ['.', '.'] ++ down = component :: rest) :
    ¬RootLike component rest ∧ (component = ['^'] → spec = []) ∧ startsWithConfigDirTemplate component = false := by
  cases up with
  | cons c up =>
    cases (List.cons.inj shape).1
    exact ⟨not_rootLike_dots rest, fun caret => (by cases caret), rfl⟩
  | nil =>
    rw [append_nil] at fromShape
    have down_ : down = component :: rest := shape
    have here (misleading : RootLike component rest ∨ component = ['^'] ∧ spec ≠ [] ∨
        startsWithConfigDirTemplate component = true) : False :=
      clear (.inr ⟨above', component, rest, toShape.trans (congrArg _ down_), by rw [fromShape, keys], misleading⟩)
    refine ⟨fun like => here (.inl like), fun caret => ?_, ?_⟩
    · by_contra filled
      exact here (.inr (.inl ⟨caret, filled⟩))
    · by_contra template
      exact here (.inr (.inr (by simpa using template)))

theorem rebasePath_pattern (ascii : LowersAscii host.toLowercase) (fromRooted : rootOf source ≠ [])
    (toRooted : rootOf (getDirectoryPath path) ≠ [])
    (sameRoot : rootOf (normalizeSlashes source) = rootOf (normalizeSlashes (getDirectoryPath path)))
    (plain : startsWithConfigDirTemplate spec = false) (clear : ¬host.Misleads source (getDirectoryPath path) spec) :
    startsWithConfigDirTemplate (host.rebasePath path (normalizeSlashes source) spec) = false ∧
      host.absolutePattern (host.rebasePath path (normalizeSlashes source) spec) source =
        host.absolutePattern spec (getDirectoryPath path) := by
  have some_ : source ≠ [] := by
    rintro rfl
    exact fromRooted rfl
  have some_' : getDirectoryPath path ≠ [] := fun none => toRooted (by rw [none]; rfl)
  have kept : startsWithConfigDirTemplate (normalizeSlashes (getDirectoryPath path)) = false := by
    rw [startsWithConfigDirTemplate_normalizeSlashes]
    exact eq_false_of_ne_true fun template => clear (.inl template)
  unfold rebasePath
  by_cases absolute : 0 < getEncodedRootLength spec
  · rw [if_pos (.inr absolute)]
    have rooted := rootOf_normalizeSlashes (rootOf_disk absolute)
    unfold absolutePattern
    rw [getNormalizedAbsolutePath_rooted some_ rooted, getNormalizedAbsolutePath_rooted some_' rooted]
    exact ⟨plain, rfl⟩
  rw [if_neg fun either => either.elim (fun template => Bool.false_ne_true (plain.symm.trans template)) absolute]
  unfold convertToRelativePath
  by_cases disk : 0 < getEncodedRootLength (getDirectoryPath path)
  · rw [if_pos disk]
    have again := normalizeSlashes_of_slashed (slashed_normalizeSlashes source)
    have rooted := rootOf_normalizeSlashes fromRooted
    have same : rootOf (normalizeSlashes (normalizeSlashes source)) = rootOf (normalizeSlashes (getDirectoryPath path)) := by
      rw [again, sameRoot]
    obtain ⟨above, up, above', down, fromShape, toShape, keys, components⟩ := relativeComponents_eq host.toLowercase
      ⟨host.useCaseSensitiveFileNames, normalizeSlashes source⟩ rooted toRooted same
    rw [again] at fromShape
    have proper := proper_steps up.length
      (regular_reducedOf (slashed_normalizeSlashes _) (rootOf_normalizeSlashes toRooted) toShape)
    have slashed := slashed_join proper
    have relative : combinePaths (getPathFromPathComponents (getPathComponentsRelativeTo host.toLowercase
        (normalizeSlashes source) (getDirectoryPath path) ⟨host.useCaseSensitiveFileNames, normalizeSlashes source⟩)) [spec] =
        combineOne (join (List.replicate up.length ['.', '.'] ++ down)) spec := by
      rw [components]
      exact congrArg (combineOne · spec) (normalizeSlashes_of_slashed slashed)
    obtain ⟨untemplated, unread⟩ : startsWithConfigDirTemplate (join (List.replicate up.length ['.', '.'] ++ down)) = false ∧
        (rootOf (normalizeSlashes spec) = [] →
          rootOf (combineOne (join (List.replicate up.length ['.', '.'] ++ down)) spec) = []) := by
      cases shape : List.replicate up.length ['.', '.'] ++ down with
      | nil =>
        refine ⟨rfl, fun unrooted => ?_⟩
        by_cases empty : spec = []
        · rw [empty]
          rfl
        · unfold combineOne
          rw [if_neg empty]
          exact (congrArg rootOf (if_pos (.inl rfl))).trans unrooted
      | cons component rest =>
        obtain ⟨noRoot, noCaret, template⟩ := relative_plain fromShape toShape keys clear component rest shape
        rw [startsWithConfigDirTemplate_join]
        exact ⟨template, rootOf_rebased (shape ▸ proper) noRoot noCaret⟩
    have resolves := @rebased_resolves host.toLowercase ⟨host.useCaseSensitiveFileNames, normalizeSlashes source⟩
      (normalizeSlashes source) (getDirectoryPath path) spec ascii rooted disk same (by rwa [relative])
    rw [combineOne_again some_] at resolves
    refine ⟨?_, resolves⟩
    rw [relative]
    exact startsWithConfigDirTemplate_combineOne untemplated plain slashed
  · rw [if_neg disk]
    have url := findScheme_normalizeSlashes (findScheme_url toRooted disk)
    have slashed := slashed_normalizeSlashes (getDirectoryPath path)
    have rooted := rootOf_combineOne_url url slashed spec
    refine ⟨startsWithConfigDirTemplate_combineOne kept plain slashed, ?_⟩
    have here : getNormalizedAbsolutePath (combinePaths (getDirectoryPath path) [spec]) source =
        getNormalizedAbsolutePath spec (getDirectoryPath path) := by
      rw [getNormalizedAbsolutePath_eq spec, absoluteFileName_combineOne some_']
      refine (getNormalizedAbsolutePath_rooted some_ rooted).trans ?_
      rw [normalizeSlashes_of_slashed (slashed_combineOne slashed)]
    exact congrArg (getCanonicalFileName host.toLowercase · host.useCaseSensitiveFileNames) here

theorem inheritedSpec_pattern (ascii : LowersAscii host.toLowercase) {root : Text} (chain : List Text) {basePath : Text}
    (sameRoot : ∀ directory ∈ basePath :: chain.map getDirectoryPath,
      rootOf directory ≠ [] ∧ rootOf (normalizeSlashes directory) = root)
    (plain : startsWithConfigDirTemplate spec = false) (clear : ¬host.Misled basePath chain spec) :
    startsWithConfigDirTemplate (host.inheritedSpec basePath chain spec) = false ∧
      host.absolutePattern (host.inheritedSpec basePath chain spec) basePath =
        host.absolutePattern spec (writerDirectory basePath chain) := by
  induction chain generalizing basePath with
  | nil => exact ⟨plain, rfl⟩
  | cons path chain ih =>
    obtain ⟨still, deeper⟩ := ih (fun directory listed => sameRoot directory (mem_cons_of_mem _ listed))
      fun misled => clear (.inl misled)
    have here := sameRoot basePath (by simp)
    have below := sameRoot (getDirectoryPath path) (by simp)
    obtain ⟨template, level⟩ := rebasePath_pattern ascii here.1 below.1 (here.2.trans below.2.symm) still
      fun misleads => clear (.inr misleads)
    exact ⟨template, level.trans deeper⟩
end

section
variable {host} {property : String} {json : Json} {basePath configFileName : Text}
variable {path spec : Text} {own : ParsedTsconfig} {result : CompilerOptions}

theorem mem_rebaseList {slice : List Json} (member : .text spec ∈ host.rebaseList path basePath slice) :
    ∃ inner, .text inner ∈ slice ∧ spec = host.rebasePath path basePath inner := by
  obtain ⟨inner, listed, same⟩ := mem_map.mp member
  obtain ⟨value, inside, text⟩ := mem_filterMap.mp listed
  cases value <;> cases text
  exact ⟨inner, inside, (Json.text.inj same).symm⟩

theorem lists_applyExtendedConfig {extended : ParsedTsconfig} (object : own.raw.asObject.isSome) (known : property ∈ listProperties)
    (lists : Lists (host.applyExtendedConfig own extended path basePath result).1.raw property spec) :
    Lists own.raw property spec ∨ ∃ inner, Lists extended.raw property inner ∧ spec = host.rebasePath path basePath inner := by
  obtain ⟨slice, given, member⟩ := lists
  have other : property ≠ "compileOnSave" := by
    rintro rfl
    exact absurd known (by decide)
  rw [get_applyExtendedConfig object extended path basePath result other, if_pos known] at given
  cases here : own.raw.get property with
  | some value =>
    rw [here] at given
    cases given
    exact .inl ⟨slice, here, member⟩
  | none =>
    rw [here, Option.none_or] at given
    obtain ⟨inner, list, same⟩ := Option.map_eq_some_iff.mp given
    cases same
    obtain ⟨spec', inside, rebased⟩ := mem_rebaseList member
    refine .inr ⟨spec', ⟨inner, ?_, inside⟩, rebased⟩
    unfold listOf at list
    split at list
    · rename_i values found
      cases list
      exact found
    · cases list

theorem extendWith_lists {load : Text → Outcome (Option ParsedTsconfig)} (known : property ∈ listProperties) {Traced : Text → Prop}
    {paths : List Text} (loaded : ∀ path ∈ paths, ∀ extended, load path = .ok (some extended) →
      ∀ inner, Lists extended.raw property inner → Traced (host.rebasePath path basePath inner)) (object : own.raw.asObject.isSome) (traced : ∀ spec, Lists own.raw property spec → Traced spec) {applied : ParsedTsconfig × CompilerOptions}
    (done : host.extendWith load basePath paths own result = .ok applied) :
    ∀ spec, Lists applied.1.raw property spec → Traced spec := by
  induction paths generalizing own result with
  | nil =>
    cases done
    exact traced
  | cons path paths ih =>
    have loaded' (path' : Text) (listed : path' ∈ paths) := loaded path' (mem_cons_of_mem _ listed)
    obtain ⟨entry, load_, rest⟩ := Outcome.bind_eq_ok done
    cases entry with
    | none => exact ih loaded' object traced rest
    | some extended =>
      refine ih loaded' ((asObject_applyExtendedConfig own extended path basePath result).trans object) (fun spec lists => ?_) rest
      rcases lists_applyExtendedConfig object known lists with old | ⟨inner, given, rfl⟩
      · exact traced spec old
      · exact loaded path (by simp) extended load_ inner given

theorem parseConfigWorker_wrote (known : property ∈ listProperties) {fuel : Nat} {stack : List Text} {config : ParsedTsconfig}
    (parsed : host.parseConfigWorker fuel json basePath configFileName stack = .ok config)
    (lists : Lists config.raw property spec) : ∃ chain written,
      host.Wrote property json basePath configFileName chain written ∧ spec = host.inheritedSpec basePath chain written := by
  induction fuel generalizing json basePath configFileName stack config spec with
  | zero => cases parsed
  | succ fuel ih =>
    rw [parseConfigWorker] at parsed
    split at parsed
    · cases parsed
      exact ⟨[], spec, lists, rfl⟩
    obtain ⟨own, ownDone, rest⟩ := Outcome.bind_eq_ok parsed
    have facts := ownConfig_own ownDone
    have traced : ∀ spec, Lists own.raw property spec → ∃ chain written,
        host.Wrote property json basePath configFileName chain written ∧ spec = host.inheritedSpec basePath chain written := by
      intro spec own_
      rw [facts.raw] at own_
      exact ⟨[], spec, own_, rfl⟩
    split at rest
    · cases rest
      exact traced spec lists
    rename_i extends_
    obtain ⟨applied, run, built⟩ := Outcome.bind_eq_ok rest
    cases built
    refine extendWith_lists known (fun path listed extended load inner given => ?_)
      (by rw [facts.raw]; exact facts.object extends_) traced run spec lists
    split at load
    · cases load
    rename_i extendedJson found
    obtain ⟨config, nested, same⟩ := Outcome.bind_eq_ok load
    cases same
    obtain ⟨chain, written, wrote, rfl⟩ := ih nested given
    refine ⟨path :: chain, written, ⟨?_, extendedJson, found, wrote⟩, rfl⟩
    unfold extendsOf
    rw [ownDone]
    exact listed

/-- The specs of a parsed config are those that a chain of configs passes on, and each denotes what it denotes to
the config that wrote it. -/
theorem specs_inherited (host : Host) (ascii : LowersAscii host.toLowercase) (property : String) (known : property ∈ listProperties)
    (fuel : Nat) (json : Json) (basePath configFileName : Text) (stack : List Text) (config : ParsedTsconfig)
    (parsed : host.parseConfigWorker fuel json basePath configFileName stack = .ok config) :
    (∀ spec, Lists config.raw property spec → ∃ chain written,
      host.Wrote property json basePath configFileName chain written ∧ spec = host.inheritedSpec basePath chain written) ∧
    ∀ chain written, host.Wrote property json basePath configFileName chain written → SameRoot basePath chain →
      startsWithConfigDirTemplate written = false → ¬host.Misled basePath chain written →
      host.absolutePattern (host.inheritedSpec basePath chain written) basePath =
        host.absolutePattern written (writerDirectory basePath chain) := by
  refine ⟨fun spec lists => parseConfigWorker_wrote known parsed lists, fun chain written _ sameRoot plain clear => ?_⟩
  obtain ⟨root, same⟩ := sameRoot
  exact (inheritedSpec_pattern ascii chain same plain clear).2
end

/-- Configs by their paths, each a name for what the parser returns. -/
def layeredHost (files : List (Text × Json)) : Host where
  useCaseSensitiveFileNames := true
  fileExists path := (files.lookup path).isSome
  readFile path := if (files.lookup path).isSome then some path else none
  parseConfigText text := ((files.lookup text).getD .null, false)
  resolveConfig _ _ := none
  toLowercase c := [c.toLower]
  fromStr _ := none
  toText _ := []
  optionsDeclarationFor _ := none
  commandLineOptionEnumMap _ := none

def includesSrc : Json := .object [("include", .array [.text "src".toList])]

def extendsConfig (path : Text) : Json := .object [("extends", .text path)]

def threeLayers : Host := layeredHost [("/p/base/base.json".toList, extendsConfig "../core/core.json".toList),
  ("/p/core/core.json".toList, includesSrc)]

theorem specs_inherited_threeLayers :
    threeLayers.absolutePattern (threeLayers.inheritedSpec "/p".toList
        ["/p/base/base.json".toList, "/p/core/core.json".toList] "src".toList) "/p".toList =
      threeLayers.absolutePattern "src".toList "/p/core".toList := by
  have parsed : ∃ config, threeLayers.parseConfigWorker 3 (extendsConfig "./base/base.json".toList) "/p".toList
      "tsconfig.json".toList [] = .ok config := ⟨_, rfl⟩
  obtain ⟨config, parsed⟩ := parsed
  refine (specs_inherited threeLayers (fun _ _ => rfl) "include" (by decide) 3 _ _ _ _ _ parsed).2 _ _ ?_ ?_ (by decide) ?_
  · exact ⟨mem_singleton.mpr (by decide), _, rfl, mem_singleton.mpr (by decide), _, rfl, _, rfl, by simp⟩
  · exact ⟨['/'], by decide⟩
  have core : reducedOf (normalizeSlashes (getDirectoryPath "/p/core/core.json".toList)) = [['p'], "core".toList] := by decide
  have base : reducedOf (normalizeSlashes (getDirectoryPath "/p/base/base.json".toList)) = [['p'], "base".toList] := by decide
  rintro ((none | template | ⟨above, component, rest, shape, same, -⟩) | template | ⟨above, component, rest, shape, same, misleading⟩)
  · exact none
  · exact absurd template (by decide)
  · rw [core] at shape
    rw [base] at same
    have length := congrArg List.length shape
    have length' := congrArg List.length same
    simp at length length'
    omega
  · exact absurd template (by decide)
  match above with
  | [] => cases same
  | [_] =>
    cases shape
    rcases misleading with (⟨v, -, drive⟩ | caret) | caret | template
    · cases drive
    · cases caret.1
    · cases caret.1
    · exact absurd template (by decide)
  | _ :: _ :: _ => cases same

/-- A directory that is named like a drive: what the spec denotes is lost. -/
theorem driveBelow_lost : ∃ host : Host, ∃ config,
    host.parseConfigWorker 2 (extendsConfig "./c:/base.json".toList) "/a".toList "tsconfig.json".toList [] = .ok config ∧
    host.Wrote "include" (extendsConfig "./c:/base.json".toList) "/a".toList "tsconfig.json".toList
      ["/a/c:/base.json".toList] "src".toList ∧ SameRoot "/a".toList ["/a/c:/base.json".toList] ∧
    Lists config.raw "include" "c:/src".toList ∧
    host.inheritedSpec "/a".toList ["/a/c:/base.json".toList] "src".toList = "c:/src".toList ∧
    host.absolutePattern "c:/src".toList "/a".toList ≠ host.absolutePattern "src".toList "/a/c:".toList := by
  refine ⟨layeredHost [("/a/c:/base.json".toList, includesSrc)], _, rfl, ?_, ?_, ?_, ?_, ?_⟩
  · exact ⟨mem_singleton.mpr (by decide), _, rfl, _, rfl, by simp⟩
  · exact ⟨['/'], by decide⟩
  · exact ⟨_, rfl, List.Mem.head _⟩
  · decide
  · decide

end Host

end TypeScriptRs.Config
