import TypeScriptRs.Config.Circularity

/-! When parsing a config ends, and when it reports a circularity. -/
namespace TypeScriptRs.Config
open Machine Utf8 Paths Chains List

section
variable {host : Host} {get : Text → Option Host.ExtendedConfigCache →
    Outcome (Host.ExtendedConfigCacheEntry × Option Host.ExtendedConfigCache)} {basePath : Text}
variable {I : Option Host.ExtendedConfigCache → Prop} {paths : List Text} {cache : Option Host.ExtendedConfigCache}

theorem extend_errors (path : Text) (s : Host.Extending) (entry : Host.ExtendedConfigCacheEntry) :
    (host.extend basePath path s entry).errors = s.errors ++ entry.errors := by
  unfold Host.extend
  cases entry.extendedConfig <;> rfl

theorem extendAll_total (host : Host) (basePath : Text) {C : Text → Prop}
    (each : ∀ path ∈ paths, ∀ cache, I cache → ∃ entry cache', get path cache = .ok (entry, cache') ∧ I cache' ∧
      (.circularity ∈ entry.errors ↔ C path)) (s : Host.Extending) (start : I cache) :
    ∃ s' cache', host.extendAll get basePath paths s cache = .ok (s', cache') ∧ I cache' ∧
      (.circularity ∈ s'.errors ↔ .circularity ∈ s.errors ∨ ∃ path ∈ paths, C path) := by
  induction paths generalizing s cache with
  | nil => exact ⟨s, cache, rfl, start, by simp⟩
  | cons path paths ih =>
    obtain ⟨entry, cache₁, got, kept, circular⟩ := each path (by simp) cache start
    obtain ⟨s', cache', rest, final, reported⟩ :=
      ih (fun path member => each path (by simp [member])) (host.extend basePath path s entry) kept
    refine ⟨s', cache', ?_, final, ?_⟩
    · rw [Host.extendAll, got]
      exact rest
    · rw [reported, extend_errors, mem_append, circular, or_assoc, exists_mem_cons_iff]

theorem extendAll_inverts {Q : Text → Prop}
    (each : ∀ path ∈ paths, ∀ cache entry cache', I cache → get path cache = .ok (entry, cache') → I cache' ∧ Q path)
    {s s' : Host.Extending} {cache' : Option Host.ExtendedConfigCache} (start : I cache)
    (run : host.extendAll get basePath paths s cache = .ok (s', cache')) : I cache' ∧ ∀ path ∈ paths, Q path := by
  induction paths generalizing s cache with
  | nil =>
    cases run
    exact ⟨start, by simp⟩
  | cons path paths ih =>
    obtain ⟨⟨entry, cache₁⟩, got, rest⟩ := Outcome.bind_eq_ok run
    obtain ⟨kept, now⟩ := each path (by simp) cache entry cache₁ start got
    obtain ⟨final, later⟩ := ih (fun path member => each path (by simp [member])) kept rest
    exact ⟨final, forall_mem_cons.mpr ⟨now, later⟩⟩
end

section
variable {host : Host} {currentDirectory : Text} {isExpired : Text → Host.ExtendedConfigCacheEntry → Bool}
variable {I : Option Host.ExtendedConfigCache → Prop}

/-- What parsing a config does for each config that it extends. -/
def visit (host : Host) (currentDirectory : Text) (isExpired : Text → Host.ExtendedConfigCacheEntry → Bool) (fuel : Nat)
    (labels : List Text) (path : Text) : Option Host.ExtendedConfigCache →
      Outcome (Host.ExtendedConfigCacheEntry × Option Host.ExtendedConfigCache) :=
  host.getExtendedConfig currentDirectory isExpired
    (host.parseExtendedConfig (host.parseConfigReporting currentDirectory isExpired fuel labels) path) path

variable {fuel : Nat} {labels : List Text} {json : Json} {basePath configFileName : Text}
  {cache cache' : Option Host.ExtendedConfigCache}

theorem parse_succ (fresh : Host.resolvedOf basePath configFileName ∉ labels) :
    host.parseConfigReporting currentDirectory isExpired (fuel + 1) labels json basePath configFileName cache =
      (host.ownConfig json (normalizeSlashes basePath) configFileName).bind fun own =>
        if own.extendedConfigPath = [] then .ok ((own, []), cache)
        else
          (host.extendAll (visit host currentDirectory isExpired fuel (labels ++ [Host.resolvedOf basePath configFileName]))
            (normalizeSlashes basePath) own.extendedConfigPath ⟨own, .default, []⟩ cache).bind fun done =>
              .ok (({ done.1.own with options := mergeCompilerOptions done.1.result own.options (some done.1.own.raw) },
                done.1.errors), done.2) :=
  if_neg fresh

theorem parse_back (back : Host.resolvedOf basePath configFileName ∈ labels) :
    host.parseConfigReporting currentDirectory isExpired (fuel + 1) labels json basePath configFileName cache =
      .ok ((⟨json, .default, []⟩, [.circularity]), cache) :=
  if_pos back

theorem parse_node (currentDirectory : Text) (isExpired : Text → Host.ExtendedConfigCacheEntry → Bool) (fuel : Nat)
    (cache : Option Host.ExtendedConfigCache) {own : Host.ParsedTsconfig} (fresh : Host.resolvedOf basePath configFileName ∉ labels)
    (reads : host.ownConfig json (normalizeSlashes basePath) configFileName = .ok own) :
    (host.parseConfigReporting currentDirectory isExpired (fuel + 1) labels json basePath configFileName cache).bind
        (fun r => .ok (r.1.2, r.2)) =
      (host.extendAll (visit host currentDirectory isExpired fuel (labels ++ [Host.resolvedOf basePath configFileName]))
        (normalizeSlashes basePath) (host.extendsOf json (normalizeSlashes basePath) configFileName) ⟨own, .default, []⟩ cache).bind
        fun done => .ok (done.1.errors, done.2) := by
  have paths : host.extendsOf json (normalizeSlashes basePath) configFileName = own.extendedConfigPath := by
    rw [Host.extendsOf, reads]
  rw [paths, parse_succ fresh, reads, Outcome.bind_ok]
  split
  · rename_i empty
    rw [empty]
    rfl
  · cases host.extendAll _ _ _ _ _ <;> rfl

theorem parse_total (fresh : Host.resolvedOf basePath configFileName ∉ labels) (converts : host.Converts json basePath configFileName) {C : Text → Prop}
    (each : ∀ path ∈ host.extendsOf json (normalizeSlashes basePath) configFileName, ∀ cache, I cache → ∃ entry cache',
      visit host currentDirectory isExpired fuel (labels ++ [Host.resolvedOf basePath configFileName]) path cache = .ok (entry, cache') ∧
        I cache' ∧ (.circularity ∈ entry.errors ↔ C path)) (start : I cache) : ∃ parsed errors cache',
      host.parseConfigReporting currentDirectory isExpired (fuel + 1) labels json basePath configFileName cache =
        .ok ((parsed, errors), cache') ∧ I cache' ∧
      (.circularity ∈ errors ↔ ∃ path ∈ host.extendsOf json (normalizeSlashes basePath) configFileName, C path) := by
  obtain ⟨own, reads⟩ := converts
  obtain ⟨s', cache', run, kept, reported⟩ := extendAll_total host (normalizeSlashes basePath) each ⟨own, .default, []⟩ start
  have view := parse_node currentDirectory isExpired fuel cache fresh reads
  rw [run, Outcome.bind_ok] at view
  obtain ⟨⟨⟨parsed, errors⟩, cache''⟩, parses, same⟩ := Outcome.bind_eq_ok view
  cases same
  exact ⟨parsed, s'.errors, cache', parses, kept, by simpa using reported⟩

theorem parse_inverts (fresh : Host.resolvedOf basePath configFileName ∉ labels) {Q : Text → Prop}
    (each : ∀ path ∈ host.extendsOf json (normalizeSlashes basePath) configFileName, ∀ cache entry cache', I cache →
      visit host currentDirectory isExpired fuel (labels ++ [Host.resolvedOf basePath configFileName]) path cache = .ok (entry, cache') →
        I cache' ∧ Q path) (start : I cache) {r : Host.ParsedTsconfig × List Host.ConfigError}
    (run : host.parseConfigReporting currentDirectory isExpired (fuel + 1) labels json basePath configFileName cache =
      .ok (r, cache')) : host.Converts json basePath configFileName ∧ I cache' ∧
      ∀ path ∈ host.extendsOf json (normalizeSlashes basePath) configFileName, Q path := by
  have converts : host.Converts json basePath configFileName := by
    rw [parse_succ fresh] at run
    obtain ⟨own, reads, _⟩ := Outcome.bind_eq_ok run
    exact ⟨own, reads⟩
  obtain ⟨own, reads⟩ := converts
  have view := parse_node currentDirectory isExpired fuel cache fresh reads
  rw [run, Outcome.bind_ok] at view
  obtain ⟨⟨s', cache''⟩, looped, same⟩ := Outcome.bind_eq_ok view.symm
  obtain rfl : cache'' = cache' := congrArg Prod.snd (Outcome.ok.inj same)
  exact ⟨⟨own, reads⟩, extendAll_inverts each start looped⟩
end

section
variable {host : Host} {currentDirectory : Text} {isExpired : Text → Host.ExtendedConfigCacheEntry → Bool} {fuel : Nat}
  {labels : List Text} {path : Text} {cache cache' : Option Host.ExtendedConfigCache}
variable {json : Json} {I : Option Host.ExtendedConfigCache → Prop} {entry : Host.ExtendedConfigCacheEntry}

def parseFile (host : Host) (currentDirectory : Text) (isExpired : Text → Host.ExtendedConfigCacheEntry → Bool) (fuel : Nat)
    (labels : List Text) (path : Text) : Option Host.ExtendedConfigCache →
      Outcome (Host.ExtendedConfigCacheEntry × Option Host.ExtendedConfigCache) :=
  host.parseExtendedConfig (host.parseConfigReporting currentDirectory isExpired fuel labels) path

theorem readErrors_plain (path : Text) : Host.ConfigError.circularity ∉ host.readErrors path := by
  unfold Host.readErrors
  split <;> simp

theorem parseFile_closed (shut : ¬ host.configGraph.opens path) :
    parseFile host currentDirectory isExpired fuel labels path cache = .ok (⟨none, [.syntaxErrors path]⟩, cache) := by
  have unread : host.extendedJson path = none := by simpa [Host.configGraph] using shut
  rw [parseFile, Host.parseExtendedConfig, unread]

theorem parseFile_open (read : host.extendedJson path = some json) :
    parseFile host currentDirectory isExpired fuel labels path cache =
      (host.parseConfigReporting currentDirectory isExpired fuel labels json (getDirectoryPath path) (getBaseFileName path) cache).bind
        fun parsed => .ok (⟨some parsed.1.1, host.readErrors path ++ parsed.1.2⟩, parsed.2) := by
  rw [parseFile, Host.parseExtendedConfig, read]

theorem refs_of_json (read : host.extendedJson path = some json) : host.configGraph.refs path =
    host.extendsOf json (normalizeSlashes (getDirectoryPath path)) (getBaseFileName path) := by
  simp only [Host.configGraph, read]

theorem opens_iff : host.configGraph.opens path ↔ ∃ json, host.extendedJson path = some json := Option.isSome_iff_exists

variable (opened : host.configGraph.opens path)
include opened

theorem parseFile_back (back : host.configGraph.label path ∈ labels) :
    ∃ entry, parseFile host currentDirectory isExpired (fuel + 1) labels path cache = .ok (entry, cache) ∧
      .circularity ∈ entry.errors := by
  obtain ⟨json, read⟩ := opens_iff.mp opened
  rw [parseFile_open read, parse_back back]
  exact ⟨_, rfl, mem_append_right _ (mem_singleton_self _)⟩

theorem parseFile_total (fresh : host.configGraph.label path ∉ labels) (converts : host.FileConverts path) {C : Text → Prop}
    (each : ∀ ref ∈ host.configGraph.refs path, ∀ cache, I cache → ∃ entry cache',
      visit host currentDirectory isExpired fuel (labels ++ [host.configGraph.label path]) ref cache = .ok (entry, cache') ∧
        I cache' ∧ (.circularity ∈ entry.errors ↔ C ref)) (start : I cache) :
    ∃ entry cache', parseFile host currentDirectory isExpired (fuel + 1) labels path cache = .ok (entry, cache') ∧ I cache' ∧
      (.circularity ∈ entry.errors ↔ ∃ ref ∈ host.configGraph.refs path, C ref) := by
  obtain ⟨json, read⟩ := opens_iff.mp opened
  rw [refs_of_json read] at each ⊢
  obtain ⟨parsed, errors, cache', parses, kept, reported⟩ := parse_total fresh (converts json read) each start
  rw [parseFile_open read, parses]
  refine ⟨_, cache', rfl, kept, ?_⟩
  rw [mem_append, reported]
  exact or_iff_right (readErrors_plain path)

theorem parseFile_inverts (fresh : host.configGraph.label path ∉ labels) {Q : Text → Prop}
    (each : ∀ ref ∈ host.configGraph.refs path, ∀ cache entry cache', I cache →
      visit host currentDirectory isExpired fuel (labels ++ [host.configGraph.label path]) ref cache = .ok (entry, cache') →
        I cache' ∧ Q ref) (start : I cache)
    (run : parseFile host currentDirectory isExpired (fuel + 1) labels path cache = .ok (entry, cache')) :
    host.FileConverts path ∧ I cache' ∧ ∀ ref ∈ host.configGraph.refs path, Q ref := by
  obtain ⟨json, read⟩ := opens_iff.mp opened
  rw [refs_of_json read] at each ⊢
  rw [parseFile_open read] at run
  obtain ⟨⟨r, cache''⟩, parses, same⟩ := Outcome.bind_eq_ok run
  obtain rfl : cache'' = cache' := congrArg Prod.snd (Outcome.ok.inj same)
  obtain ⟨converts, rest⟩ := parse_inverts fresh each start parses
  refine ⟨?_, rest⟩
  intro json' read'
  cases read.symm.trans read'
  exact converts

theorem parseFile_starved : parseFile host currentDirectory isExpired 0 labels path cache ≠ .ok (entry, cache') := by
  obtain ⟨json, read⟩ := opens_iff.mp opened
  rw [parseFile_open read]
  exact fun run => nomatch run
end

section
variable {host : Host} {currentDirectory : Text} {isExpired : Text → Host.ExtendedConfigCacheEntry → Bool} {fuel : Nat}
  {labels : List Text} {path : Text} {cache : Host.ExtendedConfigCache}

theorem visit_locked (locked : cache (host.toPath currentDirectory path) = .locked) :
    visit host currentDirectory isExpired fuel labels path (some cache) = .err Host.deadlock := by
  rw [visit, Host.getExtendedConfig]
  simp only [locked]

theorem visit_unlocked (unlocked : cache (host.toPath currentDirectory path) ≠ .locked) :
    (∃ entry, cache (host.toPath currentDirectory path) = .held entry ∧
      visit host currentDirectory isExpired fuel labels path (some cache) = .ok (entry, some cache)) ∨
    visit host currentDirectory isExpired fuel labels path (some cache) =
      (parseFile host currentDirectory isExpired fuel labels path
        (some (Function.update cache (host.toPath currentDirectory path) .locked))).bind fun parsed =>
          .ok (parsed.1, parsed.2.map fun cache => Function.update cache (host.toPath currentDirectory path) (.held parsed.1)) := by
  unfold visit
  rw [Host.getExtendedConfig]
  cases slot : cache (host.toPath currentDirectory path) with
  | absent => exact .inr rfl
  | locked => exact absurd slot unlocked
  | held entry =>
    by_cases expired : isExpired (host.toPath currentDirectory path) entry
    · exact .inr (if_pos expired)
    · exact .inl ⟨entry, rfl, if_neg expired⟩

theorem ends_of_visit {entry : Host.ExtendedConfigCacheEntry} {cache' : Option Host.ExtendedConfigCache}
    (run : visit host currentDirectory isExpired fuel labels path none = .ok (entry, cache')) :
    cache' = none ∧ Ends host.configGraph host.FileConverts labels path := by
  induction fuel generalizing labels path entry cache' with
  | zero =>
    by_cases opened : host.configGraph.opens path
    · exact absurd run (parseFile_starved opened)
    · cases (parseFile_closed opened).symm.trans run
      exact ⟨rfl, .closed opened⟩
  | succ fuel ih =>
    by_cases opened : host.configGraph.opens path
    · by_cases back : host.configGraph.label path ∈ labels
      · obtain ⟨entry', parses, _⟩ := parseFile_back opened back
        cases parses.symm.trans run
        exact ⟨rfl, .back back⟩
      have each : ∀ ref ∈ host.configGraph.refs path, ∀ cache entry cache', cache = none →
          visit host currentDirectory isExpired fuel (labels ++ [host.configGraph.label path]) ref cache = .ok (entry, cache') →
            cache' = none ∧ Ends host.configGraph host.FileConverts (labels ++ [host.configGraph.label path]) ref := by
        rintro ref _ _ entry cache' rfl visited
        exact ih visited
      obtain ⟨converts, kept, below⟩ := parseFile_inverts opened back each rfl run
      exact ⟨kept, .node converts below⟩
    · cases (parseFile_closed opened).symm.trans run
      exact ⟨rfl, .closed opened⟩
end

section
variable (host : Host) (currentDirectory : Text) (root : Text) (first : List Text)
variable {locks : Set Text} {cache : Host.ExtendedConfigCache} {labels : List Text} {n : Text} {fuel : Nat}

/-- Extended configs with one resolved name, or with one slot, have one name. -/
structure Unambiguous : Prop where
  resolved : Distinct host.configGraph root first
  cached : ∀ labels n labels' m, Reached host.configGraph root first labels n → Reached host.configGraph root first labels' m →
    host.toPath currentDirectory n = host.toPath currentDirectory m → n = m

/-- A cache whose entries report a circularity when chains come back to the root, and whose locked slots are known. -/
structure Ready (locks : Set Text) (cache : Host.ExtendedConfigCache) : Prop where
  onlyToRoot : OnlyToRoot host.configGraph root first
  unambiguous : Unambiguous host currentDirectory root first
  held : ∀ labels n entry, Reached host.configGraph root first labels n →
    cache (host.toPath currentDirectory n) = .held entry → (.circularity ∈ entry.errors ↔ Returns host.configGraph root n)
  locked : ∀ path, cache path = .locked → path ∈ locks

def ReadyFor : Option (Set Text) → Option Host.ExtendedConfigCache → Prop
  | none, cache => cache = none
  | some locks, cache => ∃ c, cache = some c ∧ Ready host currentDirectory root first locks c

def OnChain (labels : List Text) (locks : Option (Set Text)) : Prop :=
  ∀ known, locks = some known → ∀ path ∈ known, ∃ labels' n, Reached host.configGraph root first labels' n ∧ host.toPath currentDirectory n = path ∧
    host.configGraph.label n ∈ labels ∧ host.configGraph.label n ≠ root

variable {host currentDirectory root first} {isExpired : Text → Host.ExtendedConfigCacheEntry → Bool}

theorem Ready.lock (ready : Ready host currentDirectory root first locks cache)
    (path : Text) : Ready host currentDirectory root first (insert path locks) (Function.update cache path .locked) where
  onlyToRoot := ready.onlyToRoot
  unambiguous := ready.unambiguous
  held labels n entry reached slot := by
    rw [Function.update_apply] at slot
    split at slot
    · cases slot
    · exact ready.held labels n entry reached slot
  locked path' slot := by
    rw [Function.update_apply] at slot
    split at slot
    · rename_i same
      exact .inl same
    · exact .inr (ready.locked path' slot)

theorem Ready.store (reached : Reached host.configGraph root first labels n)
    (ready : Ready host currentDirectory root first (insert (host.toPath currentDirectory n) locks) cache)
    {entry : Host.ExtendedConfigCacheEntry} (correct : .circularity ∈ entry.errors ↔ Returns host.configGraph root n) :
    Ready host currentDirectory root first locks (Function.update cache (host.toPath currentDirectory n) (.held entry)) where
  onlyToRoot := ready.onlyToRoot
  unambiguous := ready.unambiguous
  held labels' m entry' reached' slot := by
    rw [Function.update_apply] at slot
    split at slot
    · rename_i same
      cases slot
      obtain rfl := ready.unambiguous.cached labels' m labels n reached' reached same
      exact correct
    · exact ready.held labels' m entry' reached' slot
  locked path slot := by
    rw [Function.update_apply] at slot
    split at slot
    · cases slot
    · rename_i other
      exact (ready.locked path slot).resolve_left other

theorem OnChain.lock {locks : Option (Set Text)} (chain : OnChain host currentDirectory root first labels locks)
    (reached : Reached host.configGraph root first labels n) (fresh : host.configGraph.label n ∉ labels) :
    OnChain host currentDirectory root first (labels ++ [host.configGraph.label n])
      (locks.map (insert (host.toPath currentDirectory n))) := by
  intro known same path member
  obtain ⟨old, rfl, rfl⟩ := Option.map_eq_some_iff.mp same
  rcases member with rfl | member
  · have inner : host.configGraph.label n ≠ root := fun same => fresh (same ▸ root_mem reached)
    exact ⟨labels, n, reached, rfl, by simp, inner⟩
  · obtain ⟨labels', m, reached', same, inside, inner⟩ := chain old rfl path member
    exact ⟨labels', m, reached', same, mem_append_left _ inside, inner⟩

/-- A visit returns, and reports a circularity when a chain circles. -/
def Visits (host : Host) (currentDirectory root : Text) (first : List Text) (isExpired : Text → Host.ExtendedConfigCacheEntry → Bool)
    (fuel : Nat) (labels : List Text) (n : Text) : Prop :=
  ∀ locks cache, OnChain host currentDirectory root first labels locks → ReadyFor host currentDirectory root first locks cache →
    ∃ entry cache', visit host currentDirectory isExpired fuel labels n cache = .ok (entry, cache') ∧
      ReadyFor host currentDirectory root first locks cache' ∧
      (.circularity ∈ entry.errors ↔ Circles host.configGraph labels n)

theorem visits_of_parses (reached : Reached host.configGraph root first labels n)
    (parses : ∀ locks cache, OnChain host currentDirectory root first labels locks →
      ReadyFor host currentDirectory root first (locks.map (insert (host.toPath currentDirectory n))) cache →
      ∃ entry cache', parseFile host currentDirectory isExpired fuel labels n cache = .ok (entry, cache') ∧
        ReadyFor host currentDirectory root first (locks.map (insert (host.toPath currentDirectory n))) cache' ∧
        (.circularity ∈ entry.errors ↔ Circles host.configGraph labels n)) :
    Visits host currentDirectory root first isExpired fuel labels n := by
  intro locks cache chain ready
  cases locks with
  | none =>
    cases ready
    exact parses none none chain rfl
  | some locks =>
    obtain ⟨cache, rfl, ready⟩ := ready
    have returns := circles_iff_returns ready.onlyToRoot reached
    have unlocked : cache (host.toPath currentDirectory n) ≠ .locked := by
      intro locked
      obtain ⟨labels', m, reached', same, inside, inner⟩ := chain locks rfl _ (ready.locked _ locked)
      obtain rfl := ready.unambiguous.cached labels' m labels n reached' reached same
      exact inner (ready.onlyToRoot labels m reached inside)
    rcases visit_unlocked unlocked with ⟨entry, slot, taken⟩ | parsed
    · exact ⟨entry, some cache, taken, ⟨cache, rfl, ready⟩, (ready.held labels n entry reached slot).trans returns.symm⟩
    obtain ⟨entry, _, parses, ⟨after, rfl, kept⟩, circular⟩ :=
      parses _ _ chain ⟨_, rfl, ready.lock (host.toPath currentDirectory n)⟩
    refine ⟨entry, some (Function.update after (host.toPath currentDirectory n) (.held entry)), ?_, ?_, circular⟩
    · rw [parsed, parses]
      rfl
    · exact ⟨_, rfl, kept.store reached (circular.trans returns)⟩

theorem visits_of_shut (shut : ¬ host.configGraph.opens n) (reached : Reached host.configGraph root first labels n) (fuel : Nat) :
    Visits host currentDirectory root first isExpired fuel labels n := by
  apply visits_of_parses reached
  intro locks cache chain ready
  refine ⟨_, cache, parseFile_closed shut, ready, ?_⟩
  constructor
  · intro reported
    cases mem_singleton.mp reported
  · intro circles
    cases circles with
    | here opened _ => exact absurd opened shut
    | through opened _ _ _ => exact absurd opened shut

theorem visits_of_back (opened : host.configGraph.opens n)
    (back : host.configGraph.label n ∈ labels) (reached : Reached host.configGraph root first labels n) (fuel : Nat) :
    Visits host currentDirectory root first isExpired (fuel + 1) labels n := by
  apply visits_of_parses reached
  intro locks cache chain ready
  obtain ⟨entry, parses, reported⟩ := parseFile_back opened back
  exact ⟨entry, cache, parses, ready, iff_of_true reported (.here opened back)⟩

theorem visits_of_refs (opened : host.configGraph.opens n)
    (fresh : host.configGraph.label n ∉ labels) (converts : host.FileConverts n)
    (reached : Reached host.configGraph root first labels n) (each : ∀ m ∈ host.configGraph.refs n,
      Visits host currentDirectory root first isExpired fuel (labels ++ [host.configGraph.label n]) m) :
    Visits host currentDirectory root first isExpired (fuel + 1) labels n := by
  apply visits_of_parses reached
  intro locks cache chain ready
  obtain ⟨entry, cache', parses, kept, reported⟩ := parseFile_total opened fresh converts
    (fun m member cache ready => each m member _ cache (chain.lock reached fresh) ready) ready
  refine ⟨entry, cache', parses, kept, reported.trans ?_⟩
  constructor
  · rintro ⟨m, member, circles⟩
    exact .through opened fresh member circles
  · intro circles
    cases circles with
    | here _ inside => exact absurd inside fresh
    | through _ _ member below => exact ⟨_, member, below⟩

theorem exists_enough {α : Type} {P : α → Nat → Prop} {list : List α} (each : ∀ a ∈ list, ∃ enough, ∀ fuel ≥ enough, P a fuel) :
    ∃ enough, ∀ fuel ≥ enough, ∀ a ∈ list, P a fuel := by
  induction list with
  | nil => exact ⟨0, by simp⟩
  | cons a list ih =>
    obtain ⟨enough₁, now⟩ := each a (by simp)
    obtain ⟨enough₂, later⟩ := ih fun b member => each b (by simp [member])
    refine ⟨max enough₁ enough₂, fun fuel large => forall_mem_cons.mpr ⟨now fuel ?_, later fuel ?_⟩⟩
    · exact (Nat.le_max_left _ _).trans large
    · exact (Nat.le_max_right _ _).trans large

theorem visits_of_ends (currentDirectory : Text) (isExpired : Text → Host.ExtendedConfigCacheEntry → Bool) (ends : Ends host.configGraph host.FileConverts labels n)
    (reached : Reached host.configGraph root first labels n) :
    ∃ enough, ∀ fuel ≥ enough, Visits host currentDirectory root first isExpired fuel labels n := by
  have step : ∀ {enough fuel : Nat}, fuel ≥ enough + 1 → ∃ k, fuel = k + 1 ∧ k ≥ enough := by
    intro enough fuel large
    exact ⟨fuel - 1, by omega, by omega⟩
  induction ends with
  | closed shut => exact ⟨0, fun fuel _ => visits_of_shut shut reached fuel⟩
  | @back labels n back =>
    refine ⟨1, fun fuel large => ?_⟩
    obtain ⟨fuel, rfl, _⟩ := step large
    by_cases opened : host.configGraph.opens n
    · exact visits_of_back opened back reached fuel
    · exact visits_of_shut opened reached _
  | @node labels n converts _ ih =>
    by_cases opened : host.configGraph.opens n
    · by_cases back : host.configGraph.label n ∈ labels
      · refine ⟨1, fun fuel large => ?_⟩
        obtain ⟨fuel, rfl, _⟩ := step large
        exact visits_of_back opened back reached fuel
      · obtain ⟨enough, each⟩ := exists_enough fun m member => ih m member (.next reached opened back member)
        refine ⟨enough + 1, fun fuel large => ?_⟩
        obtain ⟨fuel, rfl, above⟩ := step large
        exact visits_of_refs opened back converts reached (each fuel above)
    · exact ⟨0, fun fuel _ => visits_of_shut opened reached fuel⟩

variable (host currentDirectory root first)
variable {locks : Set Text} {cache : Host.ExtendedConfigCache} {labels : List Text} {n : Text} {fuel : Nat}
  {entry : Host.ExtendedConfigCacheEntry} {cache' : Option Host.ExtendedConfigCache}

/-- A cache whose entries are of grounded configs, and that has the slots of a chain locked. -/
structure Settled (locks : Set Text) (cache : Host.ExtendedConfigCache) : Prop where
  held : ∀ labels n entry, Reached host.configGraph root first labels n → cache (host.toPath currentDirectory n) = .held entry →
    Grounded host.configGraph root host.FileConverts n
  locked : ∀ path ∈ locks, cache path = .locked

def Locking (labels : List Text) (locks : Set Text) : Prop :=
  ∀ label ∈ labels, label ≠ root → ∃ labels' n, Reached host.configGraph root first labels' n ∧ host.configGraph.label n = label ∧
    host.toPath currentDirectory n ∈ locks

variable {host currentDirectory root first}

theorem Settled.lock (settled : Settled host currentDirectory root first locks cache) (path : Text) :
    Settled host currentDirectory root first (insert path locks) (Function.update cache path .locked) where
  held labels n entry reached slot := by
    rw [Function.update_apply] at slot
    split at slot
    · cases slot
    · exact settled.held labels n entry reached slot
  locked path' member := by
    rw [Function.update_apply]
    split
    · rfl
    · rename_i other
      exact settled.locked path' (member.resolve_left other)

theorem Settled.store
    (unambiguous : Unambiguous host currentDirectory root first) (reached : Reached host.configGraph root first labels n)
    (settled : Settled host currentDirectory root first (insert (host.toPath currentDirectory n) locks) cache)
    (free : host.toPath currentDirectory n ∉ locks) (grounded : Grounded host.configGraph root host.FileConverts n)
    (entry : Host.ExtendedConfigCacheEntry) :
    Settled host currentDirectory root first locks (Function.update cache (host.toPath currentDirectory n) (.held entry)) where
  held labels' m entry' reached' slot := by
    rw [Function.update_apply] at slot
    split at slot
    · rename_i same
      obtain rfl := unambiguous.cached labels' m labels n reached' reached same
      exact grounded
    · exact settled.held labels' m entry' reached' slot
  locked path member := by
    rw [Function.update_apply]
    split
    · rename_i same
      exact absurd (same ▸ member) free
    · exact settled.locked path (.inr member)

theorem Locking.lock (locking : Locking host currentDirectory root first labels locks) (reached : Reached host.configGraph root first labels n) :
    Locking host currentDirectory root first (labels ++ [host.configGraph.label n])
      (insert (host.toPath currentDirectory n) locks) := by
  intro label member inner
  rcases mem_append.mp member with old | new
  · obtain ⟨labels', m, reached', same, inside⟩ := locking label old inner
    exact ⟨labels', m, reached', same, .inr inside⟩
  · exact ⟨labels, n, reached, (mem_singleton.mp new).symm, .inl rfl⟩

variable (unambiguous : Unambiguous host currentDirectory root first) (reached : Reached host.configGraph root first labels n)
include unambiguous reached

theorem grounded_of_parses (settled : Settled host currentDirectory root first locks cache)
    (run : visit host currentDirectory isExpired fuel labels n (some cache) = .ok (entry, cache'))
    (parses : ∀ cache cache', host.toPath currentDirectory n ∉ locks →
      Settled host currentDirectory root first (insert (host.toPath currentDirectory n) locks) cache →
      parseFile host currentDirectory isExpired fuel labels n (some cache) = .ok (entry, cache') →
        (∃ after, cache' = some after ∧
          Settled host currentDirectory root first (insert (host.toPath currentDirectory n) locks) after) ∧
        Grounded host.configGraph root host.FileConverts n) :
    (∃ after, cache' = some after ∧ Settled host currentDirectory root first locks after) ∧
      Grounded host.configGraph root host.FileConverts n := by
  have unlocked : cache (host.toPath currentDirectory n) ≠ .locked := by
    intro locked
    rw [visit_locked locked] at run
    cases run
  have free : host.toPath currentDirectory n ∉ locks := fun member => unlocked (settled.locked _ member)
  rcases visit_unlocked unlocked with ⟨entry', slot, taken⟩ | parsed
  · cases taken.symm.trans run
    exact ⟨⟨cache, rfl, settled⟩, settled.held labels n entry reached slot⟩
  rw [parsed] at run
  obtain ⟨⟨entry', cache''⟩, parse, same⟩ := Outcome.bind_eq_ok run
  cases same
  obtain ⟨⟨after, rfl, kept⟩, grounded⟩ := parses _ cache'' free (settled.lock _) parse
  exact ⟨⟨_, rfl, kept.store unambiguous reached free grounded entry'⟩, grounded⟩

theorem grounded_of_visit (locking : Locking host currentDirectory root first labels locks)
    (settled : Settled host currentDirectory root first locks cache)
    (run : visit host currentDirectory isExpired fuel labels n (some cache) = .ok (entry, cache')) :
    (∃ after, cache' = some after ∧ Settled host currentDirectory root first locks after) ∧
      Grounded host.configGraph root host.FileConverts n := by
  induction fuel generalizing labels n locks cache entry cache' with
  | zero =>
    apply grounded_of_parses unambiguous reached settled run
    intro cache cache' _ settled parse
    by_cases opened : host.configGraph.opens n
    · exact absurd parse (parseFile_starved opened)
    · cases (parseFile_closed opened).symm.trans parse
      exact ⟨⟨cache, rfl, settled⟩, .closed opened⟩
  | succ fuel ih =>
    apply grounded_of_parses unambiguous reached settled run
    intro cache cache' free settled parse
    by_cases opened : host.configGraph.opens n
    · by_cases back : host.configGraph.label n ∈ labels
      · obtain ⟨entry', parses, _⟩ := parseFile_back opened back
        cases parses.symm.trans parse
        refine ⟨⟨cache, rfl, settled⟩, ?_⟩
        by_cases same : host.configGraph.label n = root
        · exact .back same
        · obtain ⟨labels', m, reached', named, inside⟩ := locking _ back same
          obtain rfl := unambiguous.resolved labels' m labels n reached' reached named
          exact absurd inside free
      have each : ∀ m ∈ host.configGraph.refs n, ∀ cache entry cache',
          (∃ c, cache = some c ∧ Settled host currentDirectory root first (insert (host.toPath currentDirectory n) locks) c) →
          visit host currentDirectory isExpired fuel (labels ++ [host.configGraph.label n]) m cache = .ok (entry, cache') →
            (∃ c, cache' = some c ∧
              Settled host currentDirectory root first (insert (host.toPath currentDirectory n) locks) c) ∧
            Grounded host.configGraph root host.FileConverts m := by
        rintro m member _ entry cache' ⟨cache, rfl, settled⟩ visited
        exact ih (.next reached opened back member) (locking.lock reached) settled visited
      obtain ⟨converts, kept, below⟩ := parseFile_inverts opened back each ⟨cache, rfl, settled⟩ parse
      exact ⟨kept, .node converts below⟩
    · cases (parseFile_closed opened).symm.trans parse
      exact ⟨⟨cache, rfl, settled⟩, .closed opened⟩
end

section
variable (host : Host) (currentDirectory : Text) (isExpired : Text → Host.ExtendedConfigCacheEntry → Bool)
  (json : Json) (basePath configFileName : Text)
variable {cache : Option Host.ExtendedConfigCache}

def startsAt : List Text := host.extendsOf json (normalizeSlashes basePath) configFileName

def ChainRevisits : Prop := Revisits host.configGraph (Host.resolvedOf basePath configFileName) (startsAt host json basePath configFileName)

/-- A chain comes back to a file name whose text can be parsed. -/
def ReadableRevisits : Prop :=
  OpenRevisits host.configGraph (Host.resolvedOf basePath configFileName) (startsAt host json basePath configFileName)

def RevisitsOnlyRoot : Prop :=
  OnlyToRoot host.configGraph (Host.resolvedOf basePath configFileName) (startsAt host json basePath configFileName)

def AllConvert : Prop := host.Converts json basePath configFileName ∧
  ∀ n, Inner host.configGraph (Host.resolvedOf basePath configFileName) (startsAt host json basePath configFileName) n →
    host.FileConverts n

def FinitelyNamed : Prop := {name | ∃ labels n, Reached host.configGraph (Host.resolvedOf basePath configFileName)
  (startsAt host json basePath configFileName) labels n ∧ host.configGraph.label n = name}.Finite

def NamedOnce : Prop :=
  Unambiguous host currentDirectory (Host.resolvedOf basePath configFileName) (startsAt host json basePath configFileName)

/-- Parsing returns, and reports a circularity exactly when a chain comes back to a file name. -/
def Handled (cache : Option Host.ExtendedConfigCache) : Prop :=
  ∃ enough, ∀ fuel ≥ enough, ∃ parsed errors cache',
    host.parseConfigReporting currentDirectory isExpired fuel [] json basePath configFileName cache = .ok ((parsed, errors), cache') ∧
      (.circularity ∈ errors ↔ ChainRevisits host json basePath configFileName)

def emptyCache : Host.ExtendedConfigCache := fun _ => .absent

variable {host currentDirectory isExpired json basePath configFileName}

/-- Parsing returns, and reports a circularity exactly when a chain comes back to a file name that can be parsed. -/
def Reports (host : Host) (currentDirectory : Text) (isExpired : Text → Host.ExtendedConfigCacheEntry → Bool)
    (json : Json) (basePath configFileName : Text) (cache : Option Host.ExtendedConfigCache) : Prop :=
  ∃ enough, ∀ fuel ≥ enough, ∃ parsed errors cache',
    host.parseConfigReporting currentDirectory isExpired fuel [] json basePath configFileName cache = .ok ((parsed, errors), cache') ∧
      (.circularity ∈ errors ↔ ReadableRevisits host json basePath configFileName)

theorem reports_of_ends (converts : host.Converts json basePath configFileName) (locks : Option (Set Text))
    (chain : OnChain host currentDirectory (Host.resolvedOf basePath configFileName) (startsAt host json basePath configFileName)
      [Host.resolvedOf basePath configFileName] locks)
    (ready : ReadyFor host currentDirectory (Host.resolvedOf basePath configFileName) (startsAt host json basePath configFileName)
      locks cache) (ends : ∀ n ∈ startsAt host json basePath configFileName,
      Ends host.configGraph host.FileConverts [Host.resolvedOf basePath configFileName] n) :
    Reports host currentDirectory isExpired json basePath configFileName cache := by
  obtain ⟨enough, each⟩ := exists_enough fun n member =>
    visits_of_ends currentDirectory isExpired (ends n member) (.first member)
  refine ⟨enough + 1, fun fuel large => ?_⟩
  obtain ⟨fuel, rfl⟩ := Nat.exists_eq_add_of_le' (Nat.le_of_add_left_le large)
  obtain ⟨parsed, errors, cache', parses, _, reported⟩ := parse_total not_mem_nil converts
    (fun n member cache ready => each fuel (by omega) n member locks cache chain ready) ready
  exact ⟨parsed, errors, cache', parses, reported.trans openRevisits_iff.symm⟩

theorem chainRevisits_of_readable (readable : ReadableRevisits host json basePath configFileName) :
    ChainRevisits host json basePath configFileName := by
  obtain ⟨labels, n, reached, _, back⟩ := readable
  exact ⟨labels, n, reached, back⟩

theorem handled_iff_of_reports (reports : Reports host currentDirectory isExpired json basePath configFileName cache) :
    Handled host currentDirectory isExpired json basePath configFileName cache ↔
      (ChainRevisits host json basePath configFileName → ReadableRevisits host json basePath configFileName) := by
  obtain ⟨enough, runs⟩ := reports
  constructor
  · rintro ⟨enough', runs'⟩ revisits
    obtain ⟨parsed, errors, cache', run, reported⟩ := runs (max enough enough') (Nat.le_max_left _ _)
    obtain ⟨parsed', errors', cache'', run', reported'⟩ := runs' (max enough enough') (Nat.le_max_right _ _)
    cases run.symm.trans run'
    exact reported.mp (reported'.mpr revisits)
  · intro readable
    refine ⟨enough, fun fuel large => ?_⟩
    obtain ⟨parsed, errors, cache', run, reported⟩ := runs fuel large
    exact ⟨parsed, errors, cache', run, reported.trans ⟨chainRevisits_of_readable, readable⟩⟩

section
variable (finite : FinitelyNamed host json basePath configFileName)
include finite

theorem ends_of_allConvert (converts : AllConvert host json basePath configFileName) : ∀ n ∈ startsAt host json basePath configFileName,
      Ends host.configGraph host.FileConverts [Host.resolvedOf basePath configFileName] n :=
  fun _ member => ends_of_finite finite converts.2 (.first member)

theorem reports_without_cache (converts : AllConvert host json basePath configFileName) :
    Reports host currentDirectory isExpired json basePath configFileName none := by
  apply reports_of_ends converts.1 none _ rfl (ends_of_allConvert finite converts)
  intro known same
  cases same

theorem reports_with_cache (named : NamedOnce host currentDirectory json basePath configFileName) (converts : AllConvert host json basePath configFileName)
    (onlyRoot : RevisitsOnlyRoot host json basePath configFileName) :
    Reports host currentDirectory isExpired json basePath configFileName (some emptyCache) := by
  have ready : Ready host currentDirectory (Host.resolvedOf basePath configFileName) (startsAt host json basePath configFileName)
      ∅ emptyCache :=
    ⟨onlyRoot, named, fun _ _ _ _ slot => (by cases slot), fun _ slot => (by cases slot)⟩
  apply reports_of_ends converts.1 (some ∅) _ ⟨_, rfl, ready⟩ (ends_of_allConvert finite converts)
  intro known same path member
  cases same
  exact absurd member (Set.notMem_empty path)
end

theorem converts_without_cache (handled : Handled host currentDirectory isExpired json basePath configFileName none) :
    AllConvert host json basePath configFileName := by
  obtain ⟨enough, runs⟩ := handled
  obtain ⟨parsed, errors, cache', run, _⟩ := runs (enough + 1) (by omega)
  have each : ∀ n ∈ startsAt host json basePath configFileName, ∀ cache entry cache', cache = none →
      visit host currentDirectory isExpired enough ([] ++ [Host.resolvedOf basePath configFileName]) n cache = .ok (entry, cache') →
        cache' = none ∧ Ends host.configGraph host.FileConverts [Host.resolvedOf basePath configFileName] n := by
    rintro n _ _ entry cache' rfl visited
    exact ends_of_visit visited
  obtain ⟨converts, _, ends⟩ := parse_inverts not_mem_nil each rfl run
  exact ⟨converts, fun n inner => fine_of_ends ends inner⟩

theorem converts_with_cache (named : NamedOnce host currentDirectory json basePath configFileName)
    (handled : Handled host currentDirectory isExpired json basePath configFileName (some emptyCache)) :
    AllConvert host json basePath configFileName ∧ RevisitsOnlyRoot host json basePath configFileName := by
  obtain ⟨enough, runs⟩ := handled
  obtain ⟨parsed, errors, cache', run, _⟩ := runs (enough + 1) (by omega)
  have locking : Locking host currentDirectory (Host.resolvedOf basePath configFileName)
      (startsAt host json basePath configFileName) [Host.resolvedOf basePath configFileName] ∅ :=
    fun label member inner => absurd (mem_singleton.mp member) inner
  have settled : Settled host currentDirectory (Host.resolvedOf basePath configFileName)
      (startsAt host json basePath configFileName) ∅ emptyCache :=
    ⟨fun _ _ _ _ slot => (by cases slot), fun path member => absurd member (Set.notMem_empty path)⟩
  have each : ∀ n ∈ startsAt host json basePath configFileName, ∀ cache entry cache',
      (∃ c, cache = some c ∧ Settled host currentDirectory (Host.resolvedOf basePath configFileName)
        (startsAt host json basePath configFileName) ∅ c) →
      visit host currentDirectory isExpired enough ([] ++ [Host.resolvedOf basePath configFileName]) n cache = .ok (entry, cache') →
        (∃ c, cache' = some c ∧ Settled host currentDirectory (Host.resolvedOf basePath configFileName)
          (startsAt host json basePath configFileName) ∅ c) ∧
        Grounded host.configGraph (Host.resolvedOf basePath configFileName) host.FileConverts n := by
    rintro n member _ entry cache' ⟨cache, rfl, settled⟩ visited
    exact grounded_of_visit named (.first member) locking settled visited
  obtain ⟨converts, _, grounded⟩ := parse_inverts not_mem_nil each ⟨_, rfl, settled⟩ run
  exact ⟨⟨converts, fun n inner => fine_of_grounded grounded inner⟩, onlyToRoot_of_grounded grounded named.resolved⟩

/-- Without a cache a circularity is reported as it should be when the options of all configs can be read and a chain that
comes back to a file finds a text that can be parsed. With a cache no chain may come back to any config but the first. -/
theorem handled_iff (finite : FinitelyNamed host json basePath configFileName) :
    (Handled host currentDirectory isExpired json basePath configFileName none ↔ AllConvert host json basePath configFileName ∧
      (ChainRevisits host json basePath configFileName → ReadableRevisits host json basePath configFileName)) ∧
    (NamedOnce host currentDirectory json basePath configFileName →
      (Handled host currentDirectory isExpired json basePath configFileName (some emptyCache) ↔
        AllConvert host json basePath configFileName ∧
        (ChainRevisits host json basePath configFileName → ReadableRevisits host json basePath configFileName) ∧
        RevisitsOnlyRoot host json basePath configFileName)) := by
  constructor
  · constructor
    · intro handled
      have converts := converts_without_cache handled
      exact ⟨converts, (handled_iff_of_reports (reports_without_cache finite converts)).mp handled⟩
    · rintro ⟨converts, readable⟩
      exact (handled_iff_of_reports (reports_without_cache finite converts)).mpr readable
  intro named
  constructor
  · intro handled
    obtain ⟨converts, onlyRoot⟩ := converts_with_cache named handled
    exact ⟨converts, (handled_iff_of_reports (reports_with_cache finite named converts onlyRoot)).mp handled, onlyRoot⟩
  · rintro ⟨converts, readable, onlyRoot⟩
    exact (handled_iff_of_reports (reports_with_cache finite named converts onlyRoot)).mpr readable
end

def selfExtending : Host where
  useCaseSensitiveFileNames := true
  fileExists path := path = "/p/a.json".toList
  readFile path := if path = "/p/a.json".toList then some [] else none
  parseConfigText _ := (.object [("extends", .text "./a.json".toList)], false)
  resolveConfig _ _ := none
  toLowercase c := [c]
  fromStr _ := none
  toText _ := []
  optionsDeclarationFor _ := none
  commandLineOptionEnumMap _ := none

def extendsIt : Json := .object [("extends", .text "./a.json".toList)]

theorem startsAt_selfExtending : startsAt selfExtending extendsIt "/p".toList "tsconfig.json".toList = ["/p/a.json".toList] := by
  with_unfolding_all rfl

theorem refs_selfExtending : selfExtending.configGraph.refs "/p/a.json".toList = ["/p/a.json".toList] := by
  with_unfolding_all rfl

theorem label_selfExtending : selfExtending.configGraph.label "/p/a.json".toList = "/p/a.json".toList := by
  with_unfolding_all rfl

theorem reached_selfExtending {labels : List Text} {n : Text} (reached : Reached selfExtending.configGraph
    (Host.resolvedOf "/p".toList "tsconfig.json".toList) (startsAt selfExtending extendsIt "/p".toList "tsconfig.json".toList) labels n) :
    n = "/p/a.json".toList := by
  induction reached with
  | first member =>
    rw [startsAt_selfExtending] at member
    exact mem_singleton.mp member
  | next _ _ _ member ih =>
    rw [ih, refs_selfExtending] at member
    exact mem_singleton.mp member

theorem finitelyNamed_selfExtending : FinitelyNamed selfExtending extendsIt "/p".toList "tsconfig.json".toList := by
  apply (Set.finite_singleton "/p/a.json".toList).subset
  rintro name ⟨labels, n, reached, rfl⟩
  rw [reached_selfExtending reached]
  exact label_selfExtending

theorem namedOnce_selfExtending : NamedOnce selfExtending [] extendsIt "/p".toList "tsconfig.json".toList where
  resolved _ _ _ _ reached reached' _ := (reached_selfExtending reached).trans (reached_selfExtending reached').symm
  cached _ _ _ _ reached reached' _ := (reached_selfExtending reached).trans (reached_selfExtending reached').symm

theorem handled_iff_selfExtending :
    (Handled selfExtending [] (fun _ _ => false) extendsIt "/p".toList "tsconfig.json".toList none ↔
      AllConvert selfExtending extendsIt "/p".toList "tsconfig.json".toList ∧
      (ChainRevisits selfExtending extendsIt "/p".toList "tsconfig.json".toList →
        ReadableRevisits selfExtending extendsIt "/p".toList "tsconfig.json".toList)) ∧
    (Handled selfExtending [] (fun _ _ => false) extendsIt "/p".toList "tsconfig.json".toList (some emptyCache) ↔
      AllConvert selfExtending extendsIt "/p".toList "tsconfig.json".toList ∧
      (ChainRevisits selfExtending extendsIt "/p".toList "tsconfig.json".toList →
        ReadableRevisits selfExtending extendsIt "/p".toList "tsconfig.json".toList) ∧
      RevisitsOnlyRoot selfExtending extendsIt "/p".toList "tsconfig.json".toList) :=
  ⟨(handled_iff finitelyNamed_selfExtending).1, (handled_iff finitelyNamed_selfExtending).2 namedOnce_selfExtending⟩

/-- With a cache, a config file that extends itself is waited for while it is parsed. -/
theorem selfExtending_unhandled :
    FinitelyNamed selfExtending extendsIt "/p".toList "tsconfig.json".toList ∧
    ChainRevisits selfExtending extendsIt "/p".toList "tsconfig.json".toList ∧
    ¬ Handled selfExtending [] (fun _ _ => false) extendsIt "/p".toList "tsconfig.json".toList (some emptyCache) := by
  have opened : selfExtending.configGraph.opens "/p/a.json".toList := by
    with_unfolding_all rfl
  have start : Reached selfExtending.configGraph (Host.resolvedOf "/p".toList "tsconfig.json".toList)
      (startsAt selfExtending extendsIt "/p".toList "tsconfig.json".toList) [Host.resolvedOf "/p".toList "tsconfig.json".toList]
      "/p/a.json".toList := by
    apply Reached.first
    rw [startsAt_selfExtending]
    exact mem_singleton_self _
  have other : selfExtending.configGraph.label "/p/a.json".toList ≠ Host.resolvedOf "/p".toList "tsconfig.json".toList := by
    decide +kernel
  have again := Reached.next start opened (by simpa using other) (by rw [refs_selfExtending]; exact mem_singleton_self _)
  refine ⟨finitelyNamed_selfExtending, ⟨_, _, again, by simp⟩, ?_⟩
  intro handled
  exact other ((converts_with_cache namedOnce_selfExtending handled).2 _ _ again (by simp))

end TypeScriptRs.Config
