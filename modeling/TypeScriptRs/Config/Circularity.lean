import TypeScriptRs.Config.Parsing
import TypeScriptRs.Lib.Chains
import TypeScriptRs.Resolver.State

/-! Where a config that extends itself is detected, with a cache of configs. -/
namespace TypeScriptRs.Config
open Machine Utf8 Paths Chains

namespace Host

inductive ConfigError where
  | circularity
  | cannotReadFile (fileName : Text)
  | syntaxErrors (fileName : Text)

structure ExtendedConfigCacheEntry where
  extendedConfig : Option ParsedTsconfig
  errors : List ConfigError

inductive Slot where
  | absent
  | locked
  | held (entry : ExtendedConfigCacheEntry)

abbrev ExtendedConfigCache := Text → Slot

def deadlock : String := "deadlock"

variable (host : Host) (currentDirectory : Text) (isExpired : Text → ExtendedConfigCacheEntry → Bool)

def toPath (fileName : Text) : Text :=
  let path := if Resolver.isRootedDiskPath fileName then Resolver.normalizePath fileName
    else getNormalizedAbsolutePath fileName currentDirectory
  if host.useCaseSensitiveFileNames then path else toFileNameLowerCase host.toLowercase path

/-- Without a cache every extended config is parsed; an entry of a cache that has expired is parsed again. -/
def getExtendedConfig (parse : Option ExtendedConfigCache → Outcome (ExtendedConfigCacheEntry × Option ExtendedConfigCache))
    (extendedConfigFileName : Text) : Option ExtendedConfigCache → Outcome (ExtendedConfigCacheEntry × Option ExtendedConfigCache)
  | none => parse none
  | some cache =>
    let path := host.toPath currentDirectory extendedConfigFileName
    let parseLocked := (parse (some (Function.update cache path .locked))).bind fun parsed =>
      .ok (parsed.1, parsed.2.map fun cache => Function.update cache path (.held parsed.1))
    match cache path with
    | .locked => .err deadlock
    | .absent => parseLocked
    | .held entry => if isExpired path entry then parseLocked else .ok (entry, some cache)

def readErrors (fileName : Text) : List ConfigError :=
  if (host.readFile fileName).isNone then [.cannotReadFile fileName] else []

def parseExtendedConfig
    (parse : Json → Text → Text → Option ExtendedConfigCache → Outcome ((ParsedTsconfig × List ConfigError) × Option ExtendedConfigCache))
    (fileName : Text) (cache : Option ExtendedConfigCache) : Outcome (ExtendedConfigCacheEntry × Option ExtendedConfigCache) :=
  match host.extendedJson fileName with
  | none => .ok (⟨none, [.syntaxErrors fileName]⟩, cache)
  | some json => (parse json (getDirectoryPath fileName) (getBaseFileName fileName) cache).bind fun parsed =>
    .ok (⟨some parsed.1.1, host.readErrors fileName ++ parsed.1.2⟩, parsed.2)

/-- A config, the options of those it extends, and the errors so far. -/
structure Extending where
  own : ParsedTsconfig
  result : CompilerOptions
  errors : List ConfigError

/-- One turn of the loop over the configs of an `extends`. -/
def extend (basePath path : Text) (s : Extending) (entry : ExtendedConfigCacheEntry) : Extending :=
  match entry.extendedConfig with
  | none => { s with errors := s.errors ++ entry.errors }
  | some extended =>
    let applied := host.applyExtendedConfig s.own extended path basePath s.result
    ⟨applied.1, applied.2, s.errors ++ entry.errors⟩

def extendAll (get : Text → Option ExtendedConfigCache → Outcome (ExtendedConfigCacheEntry × Option ExtendedConfigCache))
    (basePath : Text) : List Text → Extending → Option ExtendedConfigCache → Outcome (Extending × Option ExtendedConfigCache)
  | [], s, cache => .ok (s, cache)
  | path :: paths, s, cache => (get path cache).bind fun got => extendAll get basePath paths (host.extend basePath path s got.1) got.2

/-- `parse_config_worker` with the errors that it reports and the cache that it leaves. -/
def parseConfigReporting : Nat → List Text → Json → Text → Text → Option ExtendedConfigCache →
    Outcome ((ParsedTsconfig × List ConfigError) × Option ExtendedConfigCache)
  | 0, _, _, _, _, _ => .err outOfFuel
  | fuel + 1, resolutionStack, json, basePath, configFileName, cache =>
    let basePath := normalizeSlashes basePath
    let resolvedPath := getNormalizedAbsolutePath configFileName basePath
    if resolvedPath ∈ resolutionStack then .ok ((⟨json, .default, []⟩, [.circularity]), cache)
    else
      (host.ownConfig json basePath configFileName).bind fun own =>
        if own.extendedConfigPath = [] then .ok ((own, []), cache)
        else
          let parse := parseConfigReporting fuel (resolutionStack ++ [resolvedPath])
          let get (path : Text) := host.getExtendedConfig currentDirectory isExpired (host.parseExtendedConfig parse path) path
          (host.extendAll get basePath own.extendedConfigPath ⟨own, .default, []⟩ cache).bind fun done =>
            let options := mergeCompilerOptions done.1.result own.options (some done.1.own.raw)
            .ok (({ done.1.own with options }, done.1.errors), done.2)

def extendsOf (json : Json) (basePath configFileName : Text) : List Text :=
  match host.ownConfig json basePath configFileName with
  | .ok own => own.extendedConfigPath
  | _ => []

def resolvedOf (basePath configFileName : Text) : Text := getNormalizedAbsolutePath configFileName (normalizeSlashes basePath)

/-- The extended configs by their file names, labelled with the names that are compared. -/
def configGraph : Chains.Graph Text Text where
  label fileName := resolvedOf (getDirectoryPath fileName) (getBaseFileName fileName)
  opens fileName := (host.extendedJson fileName).isSome
  refs fileName := match host.extendedJson fileName with
    | some json => host.extendsOf json (normalizeSlashes (getDirectoryPath fileName)) (getBaseFileName fileName)
    | none => []

def Converts (json : Json) (basePath configFileName : Text) : Prop :=
  ∃ own, host.ownConfig json (normalizeSlashes basePath) configFileName = .ok own

def FileConverts (fileName : Text) : Prop :=
  ∀ json, host.extendedJson fileName = some json → host.Converts json (getDirectoryPath fileName) (getBaseFileName fileName)

end Host

/-- A call without a cache leaves none, and its result is seen as that of another call. -/
def Agrees {α β : Type} (view : α → β) (y : Outcome β) : Outcome (α × Option Host.ExtendedConfigCache) → Prop
  | .ok (a, cache) => cache = none ∧ y = .ok (view a)
  | .err message => y = .err message
  | .panic message => y = .panic message

theorem Agrees.bind {α β γ δ : Type} {view : α → β} {view' : γ → δ} {x : Outcome (α × Option Host.ExtendedConfigCache)}
    {y : Outcome β} {f : α × Option Host.ExtendedConfigCache → Outcome (γ × Option Host.ExtendedConfigCache)} {f' : β → Outcome δ}
    (first : Agrees view y x) (rest : ∀ a, Agrees view' (f' (view a)) (f (a, none))) : Agrees view' (y.bind f') (x.bind f) := by
  cases x with
  | ok r =>
    obtain ⟨a, cache⟩ := r
    obtain ⟨rfl, rfl⟩ := first
    exact rest a
  | err message =>
    cases first
    rfl
  | panic message =>
    cases first
    rfl

variable {host : Host} {currentDirectory : Text} {isExpired : Text → Host.ExtendedConfigCacheEntry → Bool}

theorem extendAll_agrees {get : Text → Option Host.ExtendedConfigCache → Outcome (Host.ExtendedConfigCacheEntry × Option Host.ExtendedConfigCache)}
    {load : Text → Outcome (Option Host.ParsedTsconfig)} (agrees : ∀ path, Agrees (·.extendedConfig) (load path) (get path none))
    (basePath : Text) (paths : List Text) (s : Host.Extending) :
    Agrees (fun s => (s.own, s.result)) (host.extendWith load basePath paths s.own s.result)
      (host.extendAll get basePath paths s none) := by
  induction paths generalizing s with
  | nil => exact ⟨rfl, rfl⟩
  | cons path paths ih =>
    apply (agrees path).bind
    intro entry
    cases entry with
    | mk extendedConfig errors =>
      cases extendedConfig with
      | none => exact ih ⟨s.own, s.result, s.errors ++ errors⟩
      | some extended => exact ih (host.extend basePath path s ⟨some extended, errors⟩)

theorem parseConfigReporting_agrees (fuel : Nat) (resolutionStack : List Text) (json : Json) (basePath configFileName : Text) :
    Agrees Prod.fst (host.parseConfigWorker fuel json basePath configFileName resolutionStack)
      (host.parseConfigReporting currentDirectory isExpired fuel resolutionStack json basePath configFileName none) := by
  induction fuel generalizing resolutionStack json basePath configFileName with
  | zero => rfl
  | succ fuel ih =>
    rw [Host.parseConfigWorker, Host.parseConfigReporting]
    dsimp only
    split
    · exact ⟨rfl, rfl⟩
    cases host.ownConfig json (normalizeSlashes basePath) configFileName with
    | err message => rfl
    | panic message => rfl
    | ok own =>
      simp only [Outcome.bind_ok]
      split
      · exact ⟨rfl, rfl⟩
      refine (extendAll_agrees ?_ _ _ ⟨own, .default, []⟩).bind fun done => ⟨rfl, rfl⟩
      intro path
      rw [Host.getExtendedConfig, Host.parseExtendedConfig]
      cases host.extendedJson path with
      | none => exact ⟨rfl, rfl⟩
      | some json => exact (ih _ json _ _).bind fun parsed => ⟨rfl, rfl⟩

end TypeScriptRs.Config
