import TypeScriptRs.SourceMap.PositionMapper

/-! What the lookups of a position mapper find, and when they find what is there. -/
namespace TypeScriptRs.SourceMap
open Machine Utf8 SortedGroups

def MappedPosition.FromSource (i : Int) (m : MappedPosition) : Prop :=
  m.isSourceMappedPosition = true ∧ m.sourceIndex = i

/-- A mapping with the least position at or after a place, among some of the mappings. -/
structure LeastFrom (position : MappedPosition → Int) (among : MappedPosition → Prop) (ms : List MappedPosition)
    (pos : Int) (m : MappedPosition) : Prop where
  listed : m ∈ ms
  chosen : among m
  reached : pos ≤ position m
  least : ∀ m' ∈ ms, among m' → pos ≤ position m' → position m ≤ position m'

def anyMapping (_ : MappedPosition) : Prop := True

/-- A mapping of the source at or after a place is found by the generated position of a nearest one. -/
def GeneratedFound (host : Host) (mapper : DocumentPositionMapper) (ms : List MappedPosition) (i : Int)
    (loc : DocumentPosition) : Prop :=
  (∃ m ∈ ms, m.FromSource i ∧ loc.pos ≤ m.sourcePosition) →
    ∃ m, LeastFrom MappedPosition.sourcePosition (MappedPosition.FromSource i) ms loc.pos m ∧
      mapper.getGeneratedPosition host loc = some ⟨mapper.generatedAbsoluteFilePath, m.generatedPosition⟩

/-- A nearest mapping that has a source is found by the source position of such a one. -/
def SourceFound (mapper : DocumentPositionMapper) (ms : List MappedPosition) (loc : DocumentPosition) : Prop :=
  (∃ m, LeastFrom MappedPosition.generatedPosition anyMapping ms loc.pos m ∧ m.isSourceMappedPosition = true) →
    ∃ m, LeastFrom MappedPosition.generatedPosition anyMapping ms loc.pos m ∧ m.isSourceMappedPosition = true ∧
      ∃ fileName, mapper.sourceFileAbsolutePaths[asIndex m.sourceIndex]? = some fileName ∧
        mapper.getSourcePosition loc = some ⟨fileName, m.sourcePosition⟩

def sourcesWithMappings (ms : List MappedPosition) : Finset Int :=
  ((ms.filter MappedPosition.isSourceMappedPosition).map MappedPosition.sourceIndex).toFinset

/-- If the source has a mapping at or after a place, its index is below the number of sources with mappings. -/
def IndexCounted (ms : List MappedPosition) (i : Int) (pos : Int) : Prop :=
  (∃ m ∈ ms, m.FromSource i ∧ pos ≤ m.sourcePosition) → 0 ≤ i ∧ asIndex i < (sourcesWithMappings ms).card

/-- Where one of the nearest mappings has a source, the first of them in the map has one. -/
def FirstHasSource (ms : List MappedPosition) (pos : Int) : Prop :=
  ∀ m, LeastFrom MappedPosition.generatedPosition anyMapping ms pos m → m.isSourceMappedPosition = true →
    ∃ first, ms.find? (fun m' => decide (m'.generatedPosition = m.generatedPosition)) = some first ∧
      first.isSourceMappedPosition = true

section
variable {host : Host} {sourceMap : RawSourceMap} {mapPath : Text}

theorem mappedPosition_source {mapping : Mapping} {m : MappedPosition}
    (placed : mappedPosition host sourceMap mapPath mapping = .ok m) (mapped : m.isSourceMappedPosition = true) :
    ∃ fileName, (sourceFileAbsolutePaths sourceMap mapPath)[asIndex m.sourceIndex]? = some fileName := by
  obtain ⟨generated, -, later⟩ := Outcome.bind_eq_ok placed
  obtain ⟨source, read, whole⟩ := Outcome.bind_eq_ok later
  cases whole
  cases known : (sourceFileAbsolutePaths sourceMap mapPath)[asIndex mapping.sourceIndex]? with
  | some fileName => exact ⟨fileName, rfl⟩
  | none =>
    have missing : source = missingPosition := by
      unfold sourcePositionOf at read
      split at read
      · rw [known] at read
        cases read
        rfl
      · cases read
        rfl
    simp [MappedPosition.isSourceMappedPosition, missing] at mapped

theorem decodedMappings_source {ms : List MappedPosition} (decoded : decodedMappings host sourceMap mapPath = .ok ms) :
    ∀ m ∈ ms, m.isSourceMappedPosition = true →
      ∃ fileName, (sourceFileAbsolutePaths sourceMap mapPath)[asIndex m.sourceIndex]? = some fileName := by
  obtain ⟨all, -, later⟩ := Outcome.bind_eq_ok decoded
  obtain ⟨positions, placed, whole⟩ := Outcome.bind_eq_ok later
  cases whole
  intro m member mapped
  split at member
  · cases member
  · obtain ⟨mapping, -, there⟩ := Outcome.mem_of_mapM placed m member
    exact mappedPosition_source there mapped
end

section
variable (host : Host) (sourceMap : RawSourceMap) (mapPath : Text) (ms : List MappedPosition)
variable {i : Int} {m : MappedPosition} {loc : DocumentPosition}

theorem samePosition_generated (a b : MappedPosition) (same : samePosition a b = true) :
    a.generatedPosition = b.generatedPosition := by
  unfold samePosition at same
  simp only [Bool.and_eq_true, decide_eq_true_eq] at same
  exact same.1

theorem samePosition_source (a b : MappedPosition) (same : samePosition a b = true) : a.sourcePosition = b.sourcePosition := by
  unfold samePosition at same
  simp only [Bool.and_eq_true, decide_eq_true_eq] at same
  exact same.2.2

def mappingsFrom (i : Int) : List MappedPosition :=
  (ms.filter MappedPosition.isSourceMappedPosition).filter fun m => decide (m.sourceIndex = i)

theorem mem_mappingsFrom : m ∈ mappingsFrom ms i ↔ m ∈ ms ∧ m.FromSource i := by
  unfold mappingsFrom MappedPosition.FromSource
  rw [List.mem_filter, List.mem_filter, decide_eq_true_eq, and_assoc]

theorem getGeneratedPosition_eq
    (located : (documentPositionMapper host sourceMap mapPath ms).sourceIndexOf host loc.fileName = some i) :
    (documentPositionMapper host sourceMap mapPath ms).getGeneratedPosition host loc =
      if 0 ≤ i ∧ asIndex i < (sourcesWithMappings ms).card then
        ((sortByKey MappedPosition.sourcePosition (mappingsFrom ms i)).find? fun m => decide (loc.pos ≤ m.sourcePosition)).map
          fun m => ⟨generatedAbsoluteFilePath sourceMap mapPath, m.generatedPosition⟩ else none := by
  have count : (documentPositionMapper host sourceMap mapPath ms).sourceMappings.length = (sourcesWithMappings ms).card := by
    rw [documentPositionMapper, List.length_map, length_groupBy]
    rfl
  have group : (documentPositionMapper host sourceMap mapPath ms).sourceMappings.lookup i =
      if i ∈ (ms.filter MappedPosition.isSourceMappedPosition).map MappedPosition.sourceIndex then
        some (dedupBy samePosition (sortByKey MappedPosition.sourcePosition (mappingsFrom ms i)))
      else none := by
    refine (lookup_mapValues (fun list => dedupBy samePosition (sortByKey MappedPosition.sourcePosition list))
      (groupBy MappedPosition.sourceIndex (ms.filter MappedPosition.isSourceMappedPosition)) i).trans ?_
    rw [lookup_groupBy]
    split
    · rfl
    · rfl
  unfold DocumentPositionMapper.getGeneratedPosition
  rw [located, Option.bind_eq_bind, Option.bind_some, group]
  by_cases known : i ∈ (ms.filter MappedPosition.isSourceMappedPosition).map MappedPosition.sourceIndex
  · rw [if_pos known, Option.bind_eq_bind, Option.bind_some, count]
    by_cases counted : 0 ≤ i ∧ asIndex i < (sourcesWithMappings ms).card
    · have search := getElem?_sorted samePosition_source (mappingsFrom ms i) loc.pos
      rw [if_neg (by omega), if_pos counted]
      dsimp only
      rw [search]
      cases found : (sortByKey MappedPosition.sourcePosition (mappingsFrom ms i)).find? fun m =>
          decide (loc.pos ≤ m.sourcePosition) with
      | none => rfl
      | some m =>
        have source := ((mem_mappingsFrom ms).mp (find?_sortByKey found).1).2.2
        rw [Option.bind_eq_bind, Option.bind_some, if_neg (not_not_intro source)]
        rfl
    · rw [if_pos (by omega), if_neg counted]
  · have nothing : mappingsFrom ms i = [] := by
      refine List.filter_eq_nil_iff.mpr fun m member source => known ?_
      exact List.mem_map.mpr ⟨m, member, of_decide_eq_true source⟩
    rw [if_neg known, nothing]
    exact (ite_self none).symm

theorem found_least {pos : Int}
    (found : (sortByKey MappedPosition.sourcePosition (mappingsFrom ms i)).find? (fun m => decide (pos ≤ m.sourcePosition)) =
      some m) : LeastFrom MappedPosition.sourcePosition (MappedPosition.FromSource i) ms pos m := by
  obtain ⟨listed, reached, least, -⟩ := find?_sortByKey found
  obtain ⟨there, source⟩ := (mem_mappingsFrom ms).mp listed
  exact ⟨there, source, reached, fun m' member from_ => least m' ((mem_mappingsFrom ms).mpr ⟨member, from_⟩)⟩

theorem generatedFound_iff
    (located : (documentPositionMapper host sourceMap mapPath ms).sourceIndexOf host loc.fileName = some i) :
    GeneratedFound host (documentPositionMapper host sourceMap mapPath ms) ms i loc ↔ IndexCounted ms i loc.pos := by
  unfold GeneratedFound IndexCounted
  rw [getGeneratedPosition_eq host sourceMap mapPath ms located]
  refine forall_congr' fun ahead => ?_
  split
  · rename_i counted
    refine iff_of_true ?_ counted
    cases found : (sortByKey MappedPosition.sourcePosition (mappingsFrom ms i)).find? fun m =>
        decide (loc.pos ≤ m.sourcePosition) with
    | some m => exact ⟨m, found_least ms found, rfl⟩
    | none =>
      obtain ⟨m, member, source, reached⟩ := ahead
      have below := find?_sortByKey_none.mp found m ((mem_mappingsFrom ms).mpr ⟨member, source⟩)
      exact absurd reached (not_le_of_gt below)
  · rename_i uncounted
    refine iff_of_false ?_ uncounted
    rintro ⟨m, -, impossible⟩
    cases impossible

theorem getSourcePosition_eq (loc : DocumentPosition) : (documentPositionMapper host sourceMap mapPath ms).getSourcePosition loc =
      ((sortByKey MappedPosition.generatedPosition ms).find? fun m => decide (loc.pos ≤ m.generatedPosition)).bind
        fun m => if m.isSourceMappedPosition then
          (sourceFileAbsolutePaths sourceMap mapPath)[asIndex m.sourceIndex]?.map fun fileName => ⟨fileName, m.sourcePosition⟩
        else none := by
  unfold DocumentPositionMapper.getSourcePosition
  have search := getElem?_sorted samePosition_generated ms loc.pos
  by_cases nothing : (documentPositionMapper host sourceMap mapPath ms).generatedMappings = []
  · rw [if_pos nothing]
    change dedupBy samePosition (sortByKey MappedPosition.generatedPosition ms) = [] at nothing
    rw [nothing] at search
    rw [← search]
    rfl
  rw [if_neg nothing, ← search]
  refine congrArg (Option.bind _) (funext fun m => ?_)
  cases m.isSourceMappedPosition with
  | true => exact Option.map_eq_bind.symm
  | false => rfl

theorem sourceFound_iff (placed : ∀ m ∈ ms, m.isSourceMappedPosition = true →
      ∃ fileName, (sourceFileAbsolutePaths sourceMap mapPath)[asIndex m.sourceIndex]? = some fileName)
    (loc : DocumentPosition) :
    SourceFound (documentPositionMapper host sourceMap mapPath ms) ms loc ↔ FirstHasSource ms loc.pos := by
  unfold SourceFound FirstHasSource
  rw [getSourcePosition_eq]
  cases found : (sortByKey MappedPosition.generatedPosition ms).find? fun m => decide (loc.pos ≤ m.generatedPosition) with
  | none =>
    have below := find?_sortByKey_none.mp found
    have nothing : ∀ m, ¬ LeastFrom MappedPosition.generatedPosition anyMapping ms loc.pos m := fun m least =>
      absurd least.reached (not_le_of_gt (below m least.listed))
    exact iff_of_true (fun some_ => absurd some_.choose_spec.1 (nothing _)) fun m least => absurd least (nothing m)
  | some first =>
    obtain ⟨listed, reached, least, earliest⟩ := find?_sortByKey found
    have nearest : LeastFrom MappedPosition.generatedPosition anyMapping ms loc.pos first :=
      ⟨listed, trivial, reached, fun m' member _ => least m' member⟩
    have level : ∀ m, LeastFrom MappedPosition.generatedPosition anyMapping ms loc.pos m →
        m.generatedPosition = first.generatedPosition := fun m other =>
      le_antisymm (other.least first listed trivial reached) (least m other.listed other.reached)
    rw [Option.bind_some]
    cases source : first.isSourceMappedPosition with
    | true =>
      obtain ⟨fileName, known⟩ := placed first listed source
      refine iff_of_true (fun _ => ⟨first, nearest, source, fileName, known, ?_⟩) fun m other _ => ?_
      · rw [if_pos rfl, known, Option.map_some]
      · rw [level m other]
        exact ⟨first, earliest, source⟩
    | false =>
      constructor
      · intro found' m other mapped
        obtain ⟨_, _, _, _, _, impossible⟩ := found' ⟨m, other, mapped⟩
        cases impossible
      rintro hasSource ⟨m, other, mapped⟩
      obtain ⟨first', earliest', source'⟩ := hasSource m other mapped
      rw [level m other, earliest] at earliest'
      cases earliest'
      rw [source] at source'
      cases source'
end

/-- The lookups of a mapper find what is there exactly when the index of the source is counted, and when the
first of the nearest mappings has a source. -/
theorem lookups_iff {host : Host} {sourceMap : RawSourceMap} {mapPath : Text} {mapper : DocumentPositionMapper}
    (created : createDocumentPositionMapper host sourceMap mapPath = .ok mapper) :
    ∃ ms, decodedMappings host sourceMap mapPath = .ok ms ∧ ∀ loc : DocumentPosition,
      (∀ i, mapper.sourceIndexOf host loc.fileName = some i →
        (GeneratedFound host mapper ms i loc ↔ IndexCounted ms i loc.pos)) ∧
      (SourceFound mapper ms loc ↔ FirstHasSource ms loc.pos) := by
  obtain ⟨ms, decoded, rest⟩ := Outcome.bind_eq_ok created
  cases rest
  exact ⟨ms, decoded, fun loc => ⟨fun i located => generatedFound_iff host sourceMap mapPath ms located,
    sourceFound_iff host sourceMap mapPath ms (decodedMappings_source decoded) loc⟩⟩

def secondOnly : RawSourceMap where
  version := 3
  file := "out.js"
  sourceRoot := ""
  sources := ["a.ts", "b.ts"]
  names := []
  mappings := "ACAA"
  sourcesContent := []

def emptyFiles : Host where
  useCaseSensitiveFileNames := true
  getEcmaLineInfo _ := some ⟨[], [0]⟩
  toLowercase c := [c.toLower]

def mapFile : Text := "/out.js.map".toList

def startOf (fileName : String) : DocumentPosition := ⟨fileName.toList, 0⟩

def onlyMapping : List MappedPosition := [⟨0, 0, 1, -1⟩]

theorem secondOnly_decoded : decodedMappings emptyFiles secondOnly mapFile = .ok onlyMapping := by decide

def secondMapper : DocumentPositionMapper := documentPositionMapper emptyFiles secondOnly mapFile onlyMapping

theorem secondOnly_created : createDocumentPositionMapper emptyFiles secondOnly mapFile = .ok secondMapper := by
  rw [createDocumentPositionMapper, secondOnly_decoded]
  rfl

theorem secondOnly_lookups : ∃ ms, decodedMappings emptyFiles secondOnly mapFile = .ok ms ∧ ∀ loc : DocumentPosition,
    (∀ i, secondMapper.sourceIndexOf emptyFiles loc.fileName = some i →
      (GeneratedFound emptyFiles secondMapper ms i loc ↔ IndexCounted ms i loc.pos)) ∧
    (SourceFound secondMapper ms loc ↔ FirstHasSource ms loc.pos) :=
  lookups_iff secondOnly_created

/-- The second source has a mapping, and only one source has any. -/
theorem secondOnly_lost : createDocumentPositionMapper emptyFiles secondOnly mapFile = .ok secondMapper ∧
    decodedMappings emptyFiles secondOnly mapFile = .ok onlyMapping ∧
    secondMapper.sourceIndexOf emptyFiles (startOf "/b.ts").fileName = some 1 ∧
    ¬ GeneratedFound emptyFiles secondMapper onlyMapping 1 (startOf "/b.ts") := by
  refine ⟨secondOnly_created, secondOnly_decoded, by decide, fun found => ?_⟩
  obtain ⟨m, -, impossible⟩ := found ⟨⟨0, 0, 1, -1⟩, by decide, ⟨by decide, rfl⟩, le_refl _⟩
  cases impossible

end TypeScriptRs.SourceMap
