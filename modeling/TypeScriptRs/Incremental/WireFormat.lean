import TypeScriptRs.Incremental.BuildInfo

/-! What the writer of a build info file builds, and that all of it survives the JSON. -/
namespace TypeScriptRs.Incremental
open Wire List

def newBuildInfoFileInfo (fileInfo : FileInfo) : BuildInfoFileInfo :=
  if fileInfo.version = fileInfo.signature ∧ !fileInfo.affectsGlobalScope ∧ fileInfo.impliedNodeFormat = .commonJS then
    { signature := fileInfo.signature }
  else if fileInfo.version ≠ fileInfo.signature ∧ fileInfo.signature = "" then
    { noSignature := some {
        version := fileInfo.version, noSignature := true, affectsGlobalScope := fileInfo.affectsGlobalScope
        impliedNodeFormat := fileInfo.impliedNodeFormat.moduleKind } }
  else
    { fileInfo := some {
        version := fileInfo.version, signature := if fileInfo.signature = fileInfo.version then "" else fileInfo.signature
        affectsGlobalScope := fileInfo.affectsGlobalScope, impliedNodeFormat := fileInfo.impliedNodeFormat.moduleKind } }

/-- The next root of an incremental program, joined to a range that ends before it. -/
def addRoot (roots : List BuildInfoRoot) (resolved : BuildInfoFileId) : List BuildInfoRoot :=
  match roots.getLast? with
  | none => [{ start := resolved }]
  | some last =>
    if last.end_ = resolved - 1 ∨ (last.end_ = 0 ∧ last.start = resolved - 1) then roots.dropLast ++ [{ last with end_ := resolved }]
    else roots ++ [{ start := resolved }]

/-- The entry for a file with the given signature, if its emit signature is another one or missing. -/
def emitSignatureOf (fileId : BuildInfoFileId) (signature : String) (emit : Option EmitSignature) : Option BuildInfoEmitSignature :=
  match emit with
  | none => some { fileId }
  | some emit =>
    if emit.signature = signature then none
    else if emit.signature ≠ "" then some { fileId, signature := emit.signature }
    else
      match emit.signatureWithDifferentOptions with
      | first :: _ =>
        if first = signature then some { fileId, differsOnlyInDtsMap := true }
        else some { fileId, signature := first, differsInOptions := true }
      | [] => none

/-- A single file id, a range of them, or the name of a root of a non-incremental program. -/
def BuildInfoRoot.Built (root : BuildInfoRoot) : Prop :=
  (root.start ≠ 0 ∧ root.nonIncremental = "") ∨ (root.start = 0 ∧ root.end_ = 0)

/-- A signature, an object that says it has none, an object with one, or nothing. -/
def BuildInfoFileInfo.Built (info : BuildInfoFileInfo) : Prop :=
  (info.signature ≠ "" → info.noSignature = none ∧ info.fileInfo = none) ∧
    ∀ noSignature ∈ info.noSignature, noSignature.noSignature = true ∧ info.fileInfo = none

def BuildInfoSemanticDiagnostic.Built (entry : BuildInfoSemanticDiagnostic) : Prop :=
  (entry.fileId ≠ 0 ∧ entry.diagnostics = none) ∨ (entry.fileId = 0 ∧ entry.diagnostics ≠ none)

/-- A signature that differs only in the map of the declarations is not written. -/
def BuildInfoEmitSignature.Built (emit : BuildInfoEmitSignature) : Prop :=
  emit.differsOnlyInDtsMap = true → emit.signature = "" ∧ emit.differsInOptions = false

structure BuildInfo.Built (info : BuildInfo) : Prop where
  root : ∀ root ∈ info.root, root.Built
  fileInfos : ∀ fileInfo ∈ info.fileInfos, fileInfo.Built
  present : info.fileInfos ≠ [] → info.fileInfosPresent = true
  options : (info.options.map (·.1)).Nodup
  semanticDiagnostics : ∀ entry ∈ info.semanticDiagnosticsPerFile, entry.Built
  emitSignatures : ∀ emit ∈ info.emitSignatures, emit.Built

theorem newBuildInfoFileInfo_built (fileInfo : FileInfo) : (newBuildInfoFileInfo fileInfo).Built := by
  unfold newBuildInfoFileInfo
  split
  · exact ⟨fun _ => ⟨rfl, rfl⟩, fun _ found => by cases found⟩
  split
  · constructor
    · intro signed
      exact absurd rfl signed
    · intro noSignature found
      cases found
      exact ⟨rfl, rfl⟩
  · constructor
    · intro signed
      exact absurd rfl signed
    · intro noSignature found
      cases found

theorem addRoot_built {roots : List BuildInfoRoot} {resolved : BuildInfoFileId} (some_ : resolved ≠ 0)
    (built : ∀ root ∈ roots, root.start ≠ 0 ∧ root.nonIncremental = "") :
    ∀ root ∈ addRoot roots resolved, root.start ≠ 0 ∧ root.nonIncremental = "" := by
  intro root member
  unfold addRoot at member
  split at member
  · cases mem_singleton.mp member
    exact ⟨some_, rfl⟩
  rename_i last ends
  have lastBuilt := built last (mem_of_getLast? ends)
  split at member
  · rcases mem_append.mp member with before | here
    · exact built root (dropLast_subset roots before)
    · cases mem_singleton.mp here
      exact lastBuilt
  · rcases mem_append.mp member with before | here
    · exact built root before
    · cases mem_singleton.mp here
      exact ⟨some_, rfl⟩

theorem emitSignatureOf_built {fileId : BuildInfoFileId} {signature : String} {emit : Option EmitSignature}
    {entry : BuildInfoEmitSignature} (written : emitSignatureOf fileId signature emit = some entry) : entry.Built := by
  unfold emitSignatureOf at written
  intro differs
  split at written
  · cases written
    cases differs
  split at written
  · cases written
  split at written
  · cases written
    cases differs
  split at written
  · split at written
    · cases written
      exact ⟨rfl, rfl⟩
    · cases written
      cases differs
  · cases written

theorem keeps_root {root : BuildInfoRoot} (built : root.Built) : rootCodec.Keeps root := by
  obtain ⟨start, end_, name⟩ := root
  have startKept := Codec.keeps_int32 start
  have endKept := Codec.keeps_int32 end_
  unfold Codec.Keeps at startKept endKept ⊢
  rcases built with ⟨some_, nameless⟩ | ⟨zero, endZero⟩
  · subst nameless
    by_cases single : end_ = 0
    · subst single
      simp only [rootCodec, some_, ne_eq, not_false_eq_true, if_true, not_true_eq_false, if_false]
      rw [startKept]
      rfl
    simp only [rootCodec, some_, single, ne_eq, not_false_eq_true, if_true]
    have kept := Codec.keeps_pair (Codec.keeps_int32 start) (Codec.keeps_int32 end_)
    rw [kept]
    rfl
  · subst zero endZero
    rfl

theorem keeps_resolvedRoot (entry : BuildInfoResolvedRoot) : resolvedRootCodec.Keeps entry := by
  have kept := Codec.keeps_pair (Codec.keeps_int32 entry.resolved) (Codec.keeps_int32 entry.root)
  exact congrArg (Option.map fun ids : Int32 × Int32 => (⟨ids.1, ids.2⟩ : BuildInfoResolvedRoot)) kept

theorem keeps_referenceMapEntry (entry : BuildInfoReferenceMapEntry) : referenceMapEntryCodec.Keeps entry := by
  have kept := Codec.keeps_pair (Codec.keeps_int32 entry.fileId) (Codec.keeps_int32 entry.fileIdListId)
  exact congrArg (Option.map fun ids : Int32 × Int32 => (⟨ids.1, ids.2⟩ : BuildInfoReferenceMapEntry)) kept

theorem keeps_noSignature (info : BuildInfoFileInfoNoSignature) : noSignatureCodec.Keeps info := by
  unfold Codec.Keeps noSignatureCodec
  simp [fieldOr_string, fieldOr_int32, fieldOr_bool, fieldOr_record_ne, find_record_ne]

theorem keeps_withSignature (info : BuildInfoFileInfoWithSignature) : withSignatureCodec.Keeps info := by
  unfold Codec.Keeps withSignatureCodec
  simp [fieldOr_string, fieldOr_int32, fieldOr_bool, fieldOr_record_ne, find_record_ne]

theorem withSignature_refused (info : BuildInfoFileInfoWithSignature) :
    (noSignatureCodec.decode (withSignatureCodec.encode info)).filter (·.noSignature) = none := by
  unfold noSignatureCodec withSignatureCodec
  simp [fieldOr_record_nil, fieldOr_string, fieldOr_int32, fieldOr_bool, fieldOr_record_ne, find_record_ne]

theorem keeps_fileInfo {info : BuildInfoFileInfo} (built : info.Built) : fileInfoCodec.Keeps info := by
  obtain ⟨signature, noSignature, fileInfo⟩ := info
  obtain ⟨signed, unsigned⟩ := built
  by_cases plain : signature = ""
  · subst plain
    cases noSignature with
    | some noSignature =>
      obtain ⟨marked, none⟩ := unsigned noSignature rfl
      subst none
      have kept : noSignatureCodec.decode (noSignatureCodec.encode noSignature) = some noSignature := keeps_noSignature noSignature
      change ((((noSignatureCodec.decode (noSignatureCodec.encode noSignature)).filter (·.noSignature)).map _) <|> _) = _
      rw [kept, Option.filter_some, if_pos marked]
      rfl
    | none =>
      cases fileInfo with
      | none => rfl
      | some fileInfo =>
        have kept : withSignatureCodec.decode (withSignatureCodec.encode fileInfo) = some fileInfo := keeps_withSignature fileInfo
        change ((((noSignatureCodec.decode (withSignatureCodec.encode fileInfo)).filter (·.noSignature)).map _) <|>
          ((withSignatureCodec.decode (withSignatureCodec.encode fileInfo)).map _)) = _
        rw [withSignature_refused, kept]
        rfl
  · obtain ⟨rfl, rfl⟩ := signed plain
    have encoded : fileInfoCodec.encode { signature } = .string signature := if_pos plain
    unfold Codec.Keeps
    rw [encoded]
    rfl

theorem keeps_repopulateInfo (info : BuildInfoRepopulateInfo) : repopulateInfoCodec.Keeps info := by
  have kind : repopulateKindCodec.Keeps info.kind := by
    cases info.kind <;> rfl
  unfold Codec.Keeps repopulateInfoCodec
  unfold Codec.Keeps at kind
  simp [fieldOr_string, fieldOr_int32, fieldOr_record_ne, find_record_ne, find_record, kind]

section
variable {key : String} {leftOut : Bool} {fields : List (List (String × Value))} {d : BuildInfoDiagnostic}

theorem decodeFields_set {α : Type} (codec : Codec α) (update : α → BuildInfoDiagnostic) {a : α} (keeps : codec.Keeps a)
    (plain : key ≠ "messageChain" ∧ key ≠ "relatedInformation") (sets : ∀ value, setField d key value = (codec.decode value).map update)
    (out : leftOut = true → update a = d) :
    decodeFields (record (field key leftOut (codec.encode a) :: fields)) d = decodeFields (record fields) (update a) := by
  have kept : codec.decode (codec.encode a) = some a := keeps
  cases leftOut with
  | true =>
    rw [out rfl]
    rfl
  | false =>
    change decodeFields ((key, codec.encode a) :: record fields) d = _
    rw [decodeFields, if_neg plain.1, if_neg plain.2, sets, kept]
    rfl

section
variable (plain : key ≠ "messageChain" ∧ key ≠ "relatedInformation")
include plain

theorem decodeFields_int32 (update : Int32 → BuildInfoDiagnostic) {n : Int32}
    (sets : ∀ value, setField d key value = (Codec.int32.decode value).map update) (unset : update 0 = d) :
    decodeFields (record (field key (isDefault n) (Codec.int32.encode n) :: fields)) d = decodeFields (record fields) (update n) :=
  decodeFields_set .int32 update (Codec.keeps_int32 n) plain sets fun out => (congrArg update (of_decide_eq_true out)).trans unset

theorem decodeFields_bool (update : Bool → BuildInfoDiagnostic) {b : Bool}
    (sets : ∀ value, setField d key value = (Codec.bool.decode value).map update) (unset : update false = d) :
    decodeFields (record (field key (!b) (Codec.bool.encode b) :: fields)) d = decodeFields (record fields) (update b) :=
  decodeFields_set .bool update (Codec.keeps_bool b) plain sets fun out => (congrArg update (by simpa using out)).trans unset

theorem decodeFields_string (update : String → BuildInfoDiagnostic) {text : String}
    (sets : ∀ value, setField d key value = (Codec.string.decode value).map update) (unset : update "" = d) :
    decodeFields (record (field key (text = "") (Codec.string.encode text) :: fields)) d = decodeFields (record fields) (update text) :=
  decodeFields_set .string update (Codec.keeps_string text) plain sets fun out => (congrArg update (of_decide_eq_true out)).trans unset
end

theorem decodeFields_messageChain {chain : List BuildInfoDiagnostic} (kept : decodeDiagnostics (encodeDiagnostics chain) = some chain)
    (unset : d.messageChain = []) :
    decodeFields (record (field "messageChain" chain.isEmpty (.array (encodeDiagnostics chain)) :: fields)) d =
      decodeFields (record fields) { d with messageChain := chain } := by
  cases chain with
  | nil =>
    have same : { d with messageChain := [] } = d := by
      cases d
      cases unset
      rfl
    rw [same]
    rfl
  | cons first rest =>
    change decodeFields (("messageChain", _) :: record fields) d = _
    rw [decodeFields, if_pos rfl, decodeDiagnosticArray, kept]
    rfl

theorem decodeFields_relatedInformation {related : List BuildInfoDiagnostic}
    (kept : decodeDiagnostics (encodeDiagnostics related) = some related) (unset : d.relatedInformation = []) :
    decodeFields (record (field "relatedInformation" related.isEmpty (.array (encodeDiagnostics related)) :: fields)) d =
      decodeFields (record fields) { d with relatedInformation := related } := by
  cases related with
  | nil =>
    have same : { d with relatedInformation := [] } = d := by
      cases d
      cases unset
      rfl
    rw [same]
    rfl
  | cons first rest =>
    change decodeFields (("relatedInformation", _) :: record fields) d = _
    rw [decodeFields, if_neg (by decide), if_pos rfl, decodeDiagnosticArray, kept]
    rfl

theorem decodeFields_repopulateInfo (info : Option BuildInfoRepopulateInfo) (unset : d.repopulateInfo = none) :
    decodeFields (record [field "repopulateInfo" info.isNone ((info.map repopulateInfoCodec.encode).getD .null)]) d =
      some { d with repopulateInfo := info } := by
  cases info with
  | none =>
    have same : { d with repopulateInfo := none } = d := by
      cases d
      cases unset
      rfl
    rw [same]
    rfl
  | some info =>
    have kept : repopulateInfoCodec.decode (repopulateInfoCodec.encode info) = some info := keeps_repopulateInfo info
    change ((repopulateInfoCodec.decode (repopulateInfoCodec.encode info)).map _).bind _ = _
    rw [kept]
    rfl

mutual

theorem decode_encodeDiagnostic : ∀ d, decodeDiagnostic (encodeDiagnostic d) = some d
  | ⟨file, noFile, pos, end_, code, category, messageKey, messageArgs, messageChain, relatedInformation, reportsUnnecessary,
      reportsDeprecated, skippedOnNoEmit, repopulateInfo⟩ => by
    have chain := decode_encodeDiagnostics messageChain
    have related := decode_encodeDiagnostics relatedInformation
    have args : (Codec.list .string).Keeps messageArgs := Codec.keeps_list fun text _ => Codec.keeps_string text
    rw [encodeDiagnostic, decodeDiagnostic,
      decodeFields_int32 (by decide) (fun file => { file }) (fun _ => rfl) rfl,
      decodeFields_bool (by decide) (fun noFile => { file, noFile }) (fun _ => rfl) rfl,
      decodeFields_int32 (by decide) (fun pos => { file, noFile, pos }) (fun _ => rfl) rfl,
      decodeFields_int32 (by decide) (fun end_ => { file, noFile, pos, end_ }) (fun _ => rfl) rfl,
      decodeFields_int32 (by decide) (fun code => { file, noFile, pos, end_, code }) (fun _ => rfl) rfl,
      decodeFields_int32 (by decide) (fun category => { file, noFile, pos, end_, code, category }) (fun _ => rfl) rfl,
      decodeFields_string (by decide) (fun messageKey => { file, noFile, pos, end_, code, category, messageKey })
          (fun _ => rfl) rfl,
      decodeFields_set (.list .string) (fun messageArgs => { file, noFile, pos, end_, code, category, messageKey, messageArgs }) args (by decide)
        (fun _ => rfl) (by simp +contextual),
      decodeFields_messageChain chain rfl,
      decodeFields_relatedInformation related rfl,
      decodeFields_bool (by decide)
        (fun reportsUnnecessary => ⟨file, noFile, pos, end_, code, category, messageKey, messageArgs, messageChain,
          relatedInformation, reportsUnnecessary, false, false, none⟩) (fun _ => rfl) rfl,
      decodeFields_bool (by decide)
        (fun reportsDeprecated => ⟨file, noFile, pos, end_, code, category, messageKey, messageArgs, messageChain,
          relatedInformation, reportsUnnecessary, reportsDeprecated, false, none⟩) (fun _ => rfl) rfl,
      decodeFields_bool (by decide)
        (fun skippedOnNoEmit => ⟨file, noFile, pos, end_, code, category, messageKey, messageArgs, messageChain,
          relatedInformation, reportsUnnecessary, reportsDeprecated, skippedOnNoEmit, none⟩) (fun _ => rfl) rfl,
      decodeFields_repopulateInfo repopulateInfo rfl]

theorem decode_encodeDiagnostics : ∀ ds, decodeDiagnostics (encodeDiagnostics ds) = some ds
  | [] => by rw [encodeDiagnostics, decodeDiagnostics]
  | d :: ds => by
    rw [encodeDiagnostics, decodeDiagnostics, decode_encodeDiagnostic d, decode_encodeDiagnostics ds]
    rfl
end

theorem keeps_diagnosticsOfFile (entry : BuildInfoDiagnosticsOfFile) : diagnosticsOfFileCodec.Keeps entry := by
  have diagnostics : diagnosticsCodec.Keeps entry.diagnostics := decode_encodeDiagnostics entry.diagnostics
  have kept := Codec.keeps_pair (Codec.keeps_int32 entry.fileId) diagnostics
  exact congrArg (Option.map fun read : Int32 × List BuildInfoDiagnostic => (⟨read.1, read.2⟩ : BuildInfoDiagnosticsOfFile)) kept

theorem keeps_semanticDiagnostic {entry : BuildInfoSemanticDiagnostic} (built : entry.Built) : semanticDiagnosticCodec.Keeps entry := by
  obtain ⟨fileId, diagnostics⟩ := entry
  unfold Codec.Keeps
  rcases built with ⟨some_, none⟩ | ⟨zero, some_⟩
  · subst none
    have encoded : semanticDiagnosticCodec.encode { fileId } = Codec.int32.encode fileId := if_pos some_
    have kept : Codec.int32.decode (Codec.int32.encode fileId) = some fileId := Codec.keeps_int32 fileId
    rw [encoded]
    change (((Codec.int32.decode (Codec.int32.encode fileId)).map _) <|> _) = _
    rw [kept]
    rfl
  subst zero
  cases diagnostics with
  | none => exact absurd rfl some_
  | some diagnostics =>
    have kept : diagnosticsOfFileCodec.decode (diagnosticsOfFileCodec.encode diagnostics) = some diagnostics :=
      keeps_diagnosticsOfFile diagnostics
    change ((diagnosticsOfFileCodec.decode (diagnosticsOfFileCodec.encode diagnostics)).map _) = _
    rw [kept]
    rfl
end

theorem keeps_pendingEmit (pending : BuildInfoFilePendingEmit) : pendingEmitCodec.Keeps pending := by
  obtain ⟨fileId, emitKind⟩ := pending
  have kept : Codec.int32.decode (Codec.int32.encode fileId) = some fileId := Codec.keeps_int32 fileId
  have ids : ∀ ids : List Int32, (Codec.list .int32).decode ((Codec.list .int32).encode ids) = some ids := fun ids =>
    Codec.keeps_list fun id _ => Codec.keeps_int32 id
  unfold Codec.Keeps
  by_cases full : emitKind = 0
  · subst full
    change (((Codec.int32.decode (Codec.int32.encode fileId)).map _) <|> _) = _
    rw [kept]
    rfl
  by_cases dts : emitKind = fileEmitKindDts
  · subst dts
    change (((Codec.list .int32).decode ((Codec.list .int32).encode [fileId])).bind _) = _
    rw [ids]
    rfl
  have encoded : pendingEmitCodec.encode { fileId, emitKind } = (Codec.list .int32).encode [fileId, Int32.ofBitVec emitKind] :=
    (if_neg full).trans (if_neg dts)
  rw [encoded]
  change (((Codec.list .int32).decode ((Codec.list .int32).encode [fileId, Int32.ofBitVec emitKind])).bind _) = _
  rw [ids]
  rfl

theorem numberAsFileId_encode (fileId : BuildInfoFileId) : numberAsFileId (Codec.int32.encode fileId) = some fileId := by
  have low := fileId.le_toInt
  have high := fileId.toInt_lt
  change some (numberAsFileId.saturated fileId.toInt) = some fileId
  unfold numberAsFileId.saturated
  rw [min_eq_right (by omega), max_eq_right low, Int32.ofInt_toInt]

def signatureOfValue (fileId : BuildInfoFileId) : Value → Option BuildInfoEmitSignature
  | .string signature => some { fileId, signature }
  | .array [] => some { fileId, differsOnlyInDtsMap := true }
  | .array [.string signature] => some { fileId, signature, differsInOptions := true }
  | _ => none

theorem keeps_emitSignature {emit : BuildInfoEmitSignature} (built : emit.Built) : emitSignatureCodec.Keeps emit := by
  obtain ⟨fileId, signature, differsOnlyInDtsMap, differsInOptions⟩ := emit
  have number := numberAsFileId_encode fileId
  have pair (written : Value) : emitSignatureCodec.decode (.array [Codec.int32.encode fileId, written]) =
      (numberAsFileId (Codec.int32.encode fileId)).bind fun fileId => signatureOfValue fileId written := rfl
  unfold Codec.Keeps
  cases differsOnlyInDtsMap with
  | true =>
    obtain ⟨same, no⟩ := built rfl
    subst same no
    have encoded : emitSignatureCodec.encode { fileId, differsOnlyInDtsMap := true } =
        .array [Codec.int32.encode fileId, .array []] := rfl
    rw [encoded, pair, number]
    rfl
  | false =>
    cases differsInOptions with
    | true =>
      have encoded : emitSignatureCodec.encode { fileId, signature, differsInOptions := true } =
          .array [Codec.int32.encode fileId, .array [.string signature]] := by simp [emitSignatureCodec, BuildInfoEmitSignature.noEmitSignature]
      rw [encoded, pair, number]
      rfl
    | false =>
      by_cases unsigned : signature = ""
      · subst unsigned
        have kept : Codec.int32.decode (Codec.int32.encode fileId) = some fileId := Codec.keeps_int32 fileId
        change (((Codec.int32.decode (Codec.int32.encode fileId)).map _) <|> _) = _
        rw [kept]
        rfl
      · have encoded : emitSignatureCodec.encode { fileId, signature } = .array [Codec.int32.encode fileId, .string signature] := by
          simp [emitSignatureCodec, BuildInfoEmitSignature.noEmitSignature, unsigned]
        rw [encoded, pair, number]
        rfl

theorem keeps_optional {α : Type} {codec : Codec α} {a : α} (keeps : codec.Keeps a) (notNull : codec.encode a ≠ .null) :
    (optional codec).Keeps (some a) := by
  have kept : codec.decode (codec.encode a) = some a := keeps
  unfold Codec.Keeps optional
  simp only [Option.map_some, Option.getD_some, kept]

theorem keeps_options {options : OrderedMap} (distinct : (options.map (·.1)).Nodup) : optionsCodec.Keeps options :=
  congrArg some (Entries.foldl_insert_distinct options [] distinct)

theorem fieldOr_fileInfos {info : BuildInfo} (built : info.Built) {fields : List (List (String × Value))}
    (absent : find "fileInfos" (record fields) = none) :
    fieldOr (optional (.list fileInfoCodec)) none "fileInfos" (record (field "fileInfos"
      (!(info.fileInfosPresent || !info.fileInfos.isEmpty)) ((optional (.list fileInfoCodec)).encode (some info.fileInfos)) :: fields)) =
      some (if info.fileInfosPresent then some info.fileInfos else none) := by
  have fileInfos := Codec.keeps_list fun fileInfo member => keeps_fileInfo (built.fileInfos fileInfo member)
  have kept : (optional (.list fileInfoCodec)).Keeps (some info.fileInfos) := keeps_optional fileInfos (by simp [Codec.list])
  cases present : info.fileInfosPresent with
  | true => exact fieldOr_record kept (by simp) absent
  | false =>
    have none_ : info.fileInfos = [] := by
      by_contra some_
      exact absurd (built.present some_) (by simp [present])
    rw [none_, fieldOr, find_record, absent]
    rfl

/-- What the writer builds survives its JSON. -/
theorem buildInfo_roundTrip (info : BuildInfo) (built : info.Built) : buildInfoCodec.decode (buildInfoCodec.encode info) = some info := by
  have root := Codec.keeps_list fun root member => keeps_root (built.root root member)
  have fileNames : (Codec.list .string).Keeps info.fileNames := Codec.keeps_list fun text _ => Codec.keeps_string text
  have fileIdsList : (Codec.list (.list .int32)).Keeps info.fileIdsList :=
    Codec.keeps_list fun ids _ => Codec.keeps_list fun id _ => Codec.keeps_int32 id
  have options := keeps_options built.options
  have referencedMap : (Codec.list referenceMapEntryCodec).Keeps info.referencedMap :=
    Codec.keeps_list fun entry _ => keeps_referenceMapEntry entry
  have semanticDiagnostics := Codec.keeps_list fun entry member => keeps_semanticDiagnostic (built.semanticDiagnostics entry member)
  have emitDiagnostics : (Codec.list diagnosticsOfFileCodec).Keeps info.emitDiagnosticsPerFile :=
    Codec.keeps_list fun entry _ => keeps_diagnosticsOfFile entry
  have changeFileSet : (Codec.list .int32).Keeps info.changeFileSet := Codec.keeps_list fun id _ => Codec.keeps_int32 id
  have pendingEmits : (Codec.list pendingEmitCodec).Keeps info.affectedFilesPendingEmit :=
    Codec.keeps_list fun pending _ => keeps_pendingEmit pending
  have emitSignatures := Codec.keeps_list fun emit member => keeps_emitSignature (built.emitSignatures emit member)
  have resolvedRoot : (Codec.list resolvedRootCodec).Keeps info.resolvedRoot :=
    Codec.keeps_list fun entry _ => keeps_resolvedRoot entry
  have present : info.fileInfosPresent = false → info.fileInfos = [] := by
    intro absent
    by_contra some_
    exact absurd (built.present some_) (by simp [absent])
  unfold buildInfoCodec
  simp only [fieldOr_record_ne, find_record_ne, fieldOr_string, fieldOr_bool, fieldOr_list, fieldOr_fileInfos built, root, fileNames,
    fileIdsList, referencedMap, semanticDiagnostics, emitDiagnostics, changeFileSet, pendingEmits, emitSignatures, resolvedRoot, options,
    find_record_nil, ne_eq, String.reduceEq, not_false_eq_true]
  cases there : info.fileInfosPresent with
  | true => cases info; simp_all
  | false =>
    cases info; simp_all

/-- Two source files, of which the second has errors and is not emitted. -/
def sampleBuildInfo : BuildInfo where
  version := "7.0.0"
  root := [{ start := 1, end_ := 2 }, { nonIncremental := "./c.ts" }]
  fileNames := ["./a.ts", "./b.ts"]
  fileInfos := [{ signature := "1f" }, { noSignature := some { version := "2e", noSignature := true } }]
  fileInfosPresent := true
  semanticDiagnosticsPerFile := [{ fileId := 2 }]
  emitSignatures := [{ fileId := 1, signature := "3d", differsInOptions := true }, { fileId := 2, differsOnlyInDtsMap := true }]

theorem buildInfo_roundTrip_sample : buildInfoCodec.decode (buildInfoCodec.encode sampleBuildInfo) = some sampleBuildInfo := by
  apply buildInfo_roundTrip
  constructor <;> simp [sampleBuildInfo, BuildInfoRoot.Built, BuildInfoFileInfo.Built, BuildInfoSemanticDiagnostic.Built,
    BuildInfoEmitSignature.Built]

end TypeScriptRs.Incremental
