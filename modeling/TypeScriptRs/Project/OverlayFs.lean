import TypeScriptRs.Lib.HashMap
import TypeScriptRs.Lsconv.Converters

/-! The overlays of open documents, and the processing of a batch of changes. -/
namespace TypeScriptRs.Project
open Machine Utf8 Lsconv

abbrev DocumentUri := String
abbrev Path := String

inductive ScriptKind where
  | unknown | js | jsx | ts | tsx | external | json | deferred
deriving DecidableEq

def languageKindToScriptKind : String → ScriptKind
  | "typescript" => .ts
  | "typescriptreact" => .tsx
  | "javascript" => .js
  | "javascriptreact" => .jsx
  | "json" => .json
  | _ => .unknown

structure Range where
  start : Position
  stop : Position
deriving DecidableEq

structure TextDocumentContentChangePartial where
  range : Range
  text : Text
deriving DecidableEq

structure TextDocumentContentChangePartialOrWholeDocument where
  partialChange : Option TextDocumentContentChangePartial
  wholeDocument : Option Text
deriving DecidableEq

inductive FileChangeKind where
  | open_ | close | change | save | watchCreate | watchChange | watchDelete
deriving DecidableEq

def FileChangeKind.isWatchKind (kind : FileChangeKind) : Bool :=
  kind = .watchCreate || kind = .watchChange || kind = .watchDelete

structure FileChange where
  kind : FileChangeKind
  uri : DocumentUri
  version : Int
  content : Text
  languageKind : String
  changes : List TextDocumentContentChangePartialOrWholeDocument
deriving DecidableEq

structure FileChangeSummary where
  opened : DocumentUri := ""
  reopened : DocumentUri := ""
  closed : Finset DocumentUri := ∅
  changed : Finset DocumentUri := ∅
  created : Finset DocumentUri := ∅
  deleted : Finset DocumentUri := ∅
  includesWatchChangeOutsideNodeModules : Bool := false
  invalidateAll : Bool := false
deriving DecidableEq

structure Overlay where
  fileName : String
  content : Text
  hash : Nat
  version : Int
  kind : ScriptKind
  matchesDiskText : Bool
deriving DecidableEq

/-- What the overlays rely on: the hash of a text, the disk, and the paths and names of document URIs. -/
structure Host where
  xxh3 : Text → Nat
  readFile : String → Option Text
  path : DocumentUri → Path
  fileName : DocumentUri → String
  positionEncoding : PositionEncodingKind

variable (host : Host)

def newOverlay (fileName : String) (content : Text) (version : Int) (kind : ScriptKind) : Overlay :=
  ⟨fileName, content, host.xxh3 content, version, kind, false⟩

def isDynamicFileName (fileName : String) : Bool := "^/".toList.isPrefixOf fileName.toList

def Overlay.computeMatchesDiskText (overlay : Overlay) : Bool × Bool :=
  if isDynamicFileName overlay.fileName then (false, false)
  else
    match host.readFile overlay.fileName with
    | none => (false, false)
    | some diskContent => (host.xxh3 diskContent = overlay.hash, true)

structure TextRange where
  pos : TextPos
  stop : TextPos

structure TextChange where
  textRange : TextRange
  newText : Text

def TextChange.applyTo (change : TextChange) (text : Text) : Outcome Text :=
  match takeBytes text (toUsize change.textRange.pos), dropBytes text (toUsize change.textRange.stop) with
  | some before, some after => .ok (before ++ change.newText ++ after)
  | _, _ => .panic "byte index is not a char boundary"

def fromLspRange (converters : Converters) (script : Script) (range : Range) : Outcome TextRange := do
  let pos ← converters.lineAndCharacterToPosition script range.start
  let stop ← converters.lineAndCharacterToPosition script range.stop
  return ⟨pos, stop⟩

def fromLspTextChange (converters : Converters) (script : Script) (change : TextDocumentContentChangePartial) :
    Outcome TextChange := do
  let textRange ← fromLspRange converters script change.range
  return ⟨textRange, change.text⟩

structure FileEvents where
  openChange : Option FileChange := none
  closeChange : Option FileChange := none
  watchChanged : Bool := false
  changes : List FileChange := []
  saved : Bool := false
  created : Bool := false
  deleted : Bool := false

def FileEvents.add (events : FileEvents) (change : FileChange) : Outcome FileEvents :=
  if events.openChange.isSome then .panic "should see no changes after open"
  else
    match change.kind with
    | .open_ => .ok { openChange := some change }
    | .close =>
      .ok { events with closeChange := some change, changes := [], saved := false, watchChanged := false }
    | .change =>
      if events.closeChange.isSome then .panic "should see no changes after close"
      else .ok { events with changes := events.changes ++ [change], saved := false, watchChanged := false }
    | .save => .ok { events with saved := true }
    | .watchCreate =>
      if events.deleted then .ok { events with deleted := false, watchChanged := true }
      else .ok { events with created := true }
    | .watchChange =>
      if !events.created then .ok { events with watchChanged := true, saved := false } else .ok events
    | .watchDelete =>
      if events.created then .ok { events with watchChanged := false, saved := false, created := false }
      else .ok { events with watchChanged := false, saved := false, deleted := true }

abbrev Overlays := HashMap Path Overlay
abbrev FileEventMap := HashMap DocumentUri FileEvents

def containsNodeModules (uri : DocumentUri) : Bool :=
  uri.toList.tails.any fun rest => "/node_modules/".toList.isPrefixOf rest

def addChange (s : FileChangeSummary × FileEventMap) (change : FileChange) : Outcome (FileChangeSummary × FileEventMap) := do
  let (result, fileEventMap) := s
  let events ← ((fileEventMap.lookup change.uri).getD {}).add change
  let includes := result.includesWatchChangeOutsideNodeModules ||
    change.kind.isWatchKind && !containsNodeModules change.uri
  return ({ result with includesWatchChangeOutsideNodeModules := includes }, fileEventMap.insert change.uri events)

/-- The state of the second loop while a file is processed, with the overlay that the file has by then. -/
structure Turn where
  result : FileChangeSummary
  newOverlays : Overlays
  overlay : Option Overlay

namespace Turn

variable (t : Turn) (uri : DocumentUri)

def open_ (change : FileChange) : Outcome Turn :=
  if t.result.opened ≠ "" ∨ t.result.reopened ≠ "" then .panic "can only process one file open event at a time"
  else
    let result :=
      match t.overlay with
      | some existing =>
        if existing.content ≠ change.content then { t.result with changed := insert uri t.result.changed }
        else { t.result with reopened := uri }
      | none => { t.result with opened := uri }
    let overlay := newOverlay host (host.fileName uri) change.content change.version
      (languageKindToScriptKind change.languageKind)
    .ok ⟨result, t.newOverlays.insert (host.path uri) overlay, t.overlay⟩

def close : Outcome Turn :=
  if t.overlay.isNone then .panic "overlay not found for closed file"
  else .ok ⟨{ t.result with closed := insert uri t.result.closed }, t.newOverlays.erase (host.path uri), none⟩

def watchChanged (saved : Bool) : Turn :=
  match t.overlay with
  | none => { t with result := { t.result with changed := insert uri t.result.changed } }
  | some current =>
    if !saved then
      let matchesDiskText := (current.computeMatchesDiskText host).1
      if matchesDiskText ≠ current.matchesDiskText then
        let overlay := { newOverlay host current.fileName current.content current.version current.kind with
          matchesDiskText }
        { t with newOverlays := t.newOverlays.insert (host.path uri) overlay, overlay := some overlay }
      else t
    else t

end Turn

def applyTextChange (version : Int) (current : Overlay)
    (textChange : TextDocumentContentChangePartialOrWholeDocument) : Outcome Overlay :=
  match textChange.partialChange, textChange.wholeDocument with
  | some partialChange, _ => do
    let converters : Converters := ⟨fun _ => computeLspLineStarts current.content, host.positionEncoding⟩
    let change ← fromLspTextChange converters ⟨current.fileName, current.content⟩ partialChange
    let newContent ← change.applyTo current.content
    return newOverlay host current.fileName newContent version current.kind
  | none, some text => .ok (newOverlay host current.fileName text version current.kind)
  | none, none => .ok current

def applyChange (current : Overlay) (change : FileChange) : Outcome Overlay := do
  let current ← change.changes.foldlM (applyTextChange host change.version) current
  if change.changes ≠ [] then return newOverlay host current.fileName current.content change.version current.kind
  else return current

namespace Turn

variable (t : Turn) (uri : DocumentUri)

def change (change : FileChange) : Outcome Turn :=
  match t.overlay with
  | none => .panic "overlay not found for changed file"
  | some current => do
    let overlay ← applyChange host current change
    return { t with
      overlay := some overlay
      newOverlays :=
        if change.changes ≠ [] then t.newOverlays.insert (host.path uri) overlay else t.newOverlays }

def changed (changes : List FileChange) : Outcome Turn :=
  let t := { t with result := { t.result with changed := insert uri t.result.changed } }
  changes.foldlM (fun t change => t.change host uri change) t

def saved : Outcome Turn :=
  match t.overlay with
  | none => .panic "overlay not found for saved file"
  | some current =>
    let overlay := { newOverlay host current.fileName current.content current.version current.kind with
      matchesDiskText := true }
    .ok { t with newOverlays := t.newOverlays.insert (host.path uri) overlay }

end Turn

/-- The creation and the deletion of a file that is not open are noted. -/
def Turn.noted (t : Turn) (uri : DocumentUri) (created deleted : Bool) : FileChangeSummary :=
  let result := if created ∧ t.overlay.isNone then { t.result with created := insert uri t.result.created } else t.result
  if deleted ∧ t.overlay.isNone then { result with deleted := insert uri result.deleted } else result

def processFile (s : FileChangeSummary × Overlays) (uri : DocumentUri) (events : FileEvents) :
    Outcome (FileChangeSummary × Overlays) := do
  let t : Turn := ⟨s.1, s.2, s.2.lookup (host.path uri)⟩
  if let some openChange := events.openChange then
    let t ← t.open_ host uri openChange
    return (t.result, t.newOverlays)
  let t ← (if events.closeChange.isSome then t.close host uri else .ok t)
  let t := if events.watchChanged then t.watchChanged host uri events.saved else t
  let t ← (if events.changes ≠ [] then t.changed host uri events.changes else .ok t)
  let t ← (if events.saved then t.saved host uri else .ok t)
  return (t.noted uri events.created events.deleted, t.newOverlays)

/-- The whole of a batch; `order` is the order in which the table of events lists its files. -/
def processChanges (order : FileEventMap → List DocumentUri) (overlays : Overlays) (changes : List FileChange) :
    Outcome (FileChangeSummary × Overlays) := do
  let (result, fileEventMap) ← changes.foldlM addChange ({}, ∅)
  (order fileEventMap).foldlM (fun s uri => processFile host s uri ((fileEventMap.lookup uri).getD {})) (result, overlays)

end TypeScriptRs.Project
