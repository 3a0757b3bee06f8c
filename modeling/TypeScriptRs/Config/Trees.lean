import TypeScriptRs.Config.Merging
import TypeScriptRs.Lib.Subtrees

/-! Trees of configs, what they are parsed to, and the values that the nearest configs give. -/
namespace TypeScriptRs.Config
open Machine Utf8 Paths Entries Preorder

structure ConfigFile where
  path : Text
  json : Json
  basePath : Text
  configFileName : Text

abbrev ConfigTree := Rose ConfigFile

namespace Host

variable (host : Host)

/-- The config with those that it extends, unless they extend each other in a circle. -/
def configTree : Nat → List Text → ConfigFile → Option ConfigTree
  | 0, _, _ => none
  | fuel + 1, resolutionStack, file =>
    let file := { file with basePath := normalizeSlashes file.basePath }
    let resolvedPath := getNormalizedAbsolutePath file.configFileName file.basePath
    if resolvedPath ∈ resolutionStack then none
    else match host.ownConfig file.json file.basePath file.configFileName with
      | .ok own =>
        let files := own.extendedConfigPath.filterMap fun path =>
          (host.extendedJson path).map fun json => ⟨path, json, getDirectoryPath path, getBaseFileName path⟩
        (files.mapM (configTree fuel (resolutionStack ++ [resolvedPath]))).map (.node file)
      | _ => some (.node file [])

def own (t : ConfigTree) : Outcome ParsedTsconfig := host.ownConfig t.label.json t.label.basePath t.label.configFileName

mutual
def parsed : ConfigTree → Outcome ParsedTsconfig
  | .node file entries =>
    (host.ownConfig file.json file.basePath file.configFileName).bind fun own =>
      if own.extendedConfigPath = [] then .ok own
      else (parsedEntries file.basePath entries own .default).bind fun applied =>
        .ok { applied.1 with options := mergeCompilerOptions applied.2 own.options (some applied.1.raw) }

def parsedEntries (basePath : Text) : List ConfigTree → ParsedTsconfig → CompilerOptions → Outcome (ParsedTsconfig × CompilerOptions)
  | [], own, result => .ok (own, result)
  | t :: ts, own, result =>
    (parsed t).bind fun extended =>
      let applied := host.applyExtendedConfig own extended t.label.path basePath result
      parsedEntries basePath ts applied.1 applied.2
end

/-- A config gives an option under its name, or by what its own file name stands for. -/
def givenBy (t : ConfigTree) (k : String) : Option FieldValue :=
  match host.own t with
  | .ok own =>
    if isNullOption t.label.json k then some (defaultValue k)
    else if isMentioned t.label.json k || own.options.values k ≠ defaultValue k then some (own.options.values k)
    else none
  | _ => none

mutual
/-- The value of the nearest config that gives an option: of the config itself, or else of those that it extends, from
the last to the first. -/
def nearest (k : String) : ConfigTree → Option FieldValue
  | .node file entries => (host.givenBy (.node file entries) k).or (nearestEntry k entries)

def nearestEntry (k : String) : List ConfigTree → Option FieldValue
  | [] => none
  | t :: ts => (nearestEntry k ts).or (nearest k t)
end

def nearestValue (t : ConfigTree) (k : String) : FieldValue := (host.nearest k t).getD (defaultValue k)

/-- A property of an extended config, as seen from a config that extends it. -/
def rebase (path basePath : Text) : Json → Json
  | .array slice => .array (host.rebaseList path basePath slice)
  | value => value

mutual
/-- The nearest `include`, `exclude` or `files`. -/
def nearestList (name : String) : ConfigTree → Option Json
  | .node file entries => (file.json.get name).or (nearestListEntry name file.basePath entries)

def nearestListEntry (name : String) (basePath : Text) : List ConfigTree → Option Json
  | [] => none
  | t :: ts => (nearestListEntry name basePath ts).or ((nearestList name t).map (host.rebase t.label.path basePath))
end

def listOf : Option Json → Option (List Json)
  | some (.array values) => some values
  | _ => none

/-- The options and the lists of a parsed config are those of the nearest configs that give them. -/
def Inherits (t : ConfigTree) : Prop :=
  ∃ config, host.parsed t = .ok config ∧ (∀ k ∈ fieldNames, config.options.values k = host.nearestValue t k) ∧
    ∀ name ∈ listProperties, listOf (config.raw.get name) = listOf (host.nearestList name t)

mutual
/-- The paths of a config, its own or inherited, when one of them is no list of texts. -/
def invalidPaths : ConfigTree → List (String × Json)
  | .node file entries =>
    match host.ownConfig file.json file.basePath file.configFileName with
    | .ok own => if honours own.options "paths" then own.options.pathsForValidation else (invalidEntry entries).getD []
    | _ => []

def invalidEntry : List ConfigTree → Option (List (String × Json))
  | [] => none
  | t :: ts => (invalidEntry ts).or
      (if host.nearestValue t "paths" ≠ defaultValue "paths" ∨ invalidPaths t ≠ [] then some (invalidPaths t) else none)
end

/-- Merging takes the value of an entry for one that it gives: a value other than the default, or `typeRoots` of its
own, or paths that are no lists of texts. -/
def counts (t : ConfigTree) (k : String) : Bool :=
  host.nearestValue t k ≠ defaultValue k || (k = "typeRoots" && isGiven t.label.json k) ||
    (k = "paths" && !(host.invalidPaths t).isEmpty)

def effect (t : ConfigTree) (k : String) : Option FieldValue :=
  if isNullOption t.label.json k then some (defaultValue k) else if host.counts t k then some (host.nearestValue t k) else none

def lastEffect (k : String) : List ConfigTree → Option FieldValue
  | [] => none
  | t :: ts => (lastEffect k ts).or (host.effect t k)

/-- The config gives the option so that merging sees it, or the last entry that has an effect on the option has the
effect of the nearest that gives it. -/
def OptionHeeded (own : ParsedTsconfig) (t : ConfigTree) (k : String) : Prop :=
  if isNullOption t.label.json k then own.extendedConfigPath ≠ [] ∨ own.options.values k = defaultValue k
  else honours own.options k = true ∨ (host.lastEffect k t.children).getD (defaultValue k) =
    if isMentioned t.label.json k then defaultValue k else (host.nearestEntry k t.children).getD (defaultValue k)

def firstList (name : String) (basePath : Text) : List ConfigTree → Option (List Json)
  | [] => none
  | t :: ts => (listOf ((host.nearestList name t).map (host.rebase t.label.path basePath))).or (firstList name basePath ts)

/-- The config gives the property, or the first entry that gives a list gives that of the nearest. -/
def ListHeeded (t : ConfigTree) (name : String) : Prop :=
  (t.label.json.get name).isSome ∨
    host.firstList name t.label.basePath t.children = listOf (host.nearestListEntry name t.label.basePath t.children)

def Heeded (t : ConfigTree) : Prop :=
  ∃ own, host.own t = .ok own ∧ (∀ k ∈ fieldNames, host.OptionHeeded own t k) ∧ ∀ name ∈ listProperties, host.ListHeeded t name

end Host

end TypeScriptRs.Config
