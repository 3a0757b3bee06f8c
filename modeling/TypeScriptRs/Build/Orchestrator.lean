import TypeScriptRs.Lib.HashMap
import TypeScriptRs.Lib.Machine

/-! One task object per project, ordered and linked by a depth-first traversal of the references. -/
namespace TypeScriptRs.Build
open Machine

abbrev Path := String

/-- The name of a config file. It ends in a file name, so it is never empty. -/
structure ConfigName where
  text : String
  nonempty : text ≠ ""
  deriving DecidableEq

/-- A reference to a project, with the config name its path resolves to. -/
structure ProjectReference where
  config : ConfigName
  circular : Bool

structure UpstreamTask where
  task : Nat
  refIndex : Nat
  deriving DecidableEq

structure BuildTask where
  config : ConfigName
  resolved : Option (List ProjectReference)
  upStream : List UpstreamTask
  downStream : List Nat
  prevReporter : Option Nat
  dirty : Bool

def BuildTask.new (config : ConfigName) : BuildTask := ⟨config, none, [], [], none, false⟩

/-- The command line and the config files that one generation of the graph reads. -/
structure Host where
  resolvedProjectPaths : List ConfigName
  watch : Bool
  toPath : String → Path
  resolvedProjectReference : HashMap Path (List ProjectReference)

structure Orchestrator where
  tasks : HashMap Path Nat
  heap : List BuildTask
  order : List ConfigName
  /-- The circularity stack of each reported cycle. -/
  errors : List (List ConfigName)

def newOrchestrator : Orchestrator := ⟨∅, [], [], []⟩

namespace Orchestrator

def getTask (o : Orchestrator) (path : Path) : Outcome Nat :=
  match o.tasks.lookup path with
  | some task => .ok task
  | none => .panic ("No build task found for " ++ path)

def updateTask (o : Orchestrator) (task : Nat) (f : BuildTask → BuildTask) : Orchestrator :=
  { o with heap := o.heap.modify task f }

def pushUpStream (o : Orchestrator) (task upstream refIndex : Nat) : Orchestrator :=
  o.updateTask task fun t => { t with upStream := t.upStream ++ [⟨upstream, refIndex⟩] }

def pushDownStream (o : Orchestrator) (task downStream : Nat) : Orchestrator :=
  o.updateTask task fun t => { t with downStream := t.downStream ++ [downStream] }

def setPrevReporter (o : Orchestrator) (task prev : Nat) : Orchestrator :=
  o.updateTask task fun t => { t with prevReporter := some prev }

/-- The task of the old graph that is used again: one that is not dirty. -/
def reusable (o : Orchestrator) (oldTasks : Option (HashMap Path Nat)) (path : Path) : Option Nat :=
  (oldTasks.bind fun old => old.lookup path).filter fun existing =>
    (o.heap[existing]?.map fun t => !t.dirty).getD false

def takeTask (o : Orchestrator) (oldTasks : Option (HashMap Path Nat)) (path : Path)
    (config : ConfigName) : Nat × Orchestrator :=
  match o.reusable oldTasks path with
  | some existing => (existing, o)
  | none => (o.heap.length, { o with heap := o.heap ++ [BuildTask.new config] })

end Orchestrator

namespace Host

variable (host : Host)

def path (config : ConfigName) : Path := host.toPath config.text

/-- The task of a project that has none yet, with its references read again and its
links upward removed. -/
def startTask (oldTasks : Option (HashMap Path Nat)) (o : Orchestrator) (config : ConfigName) :
    Orchestrator :=
  let path := host.path config
  let (task, o) := o.takeTask oldTasks path config
  let o := { o with tasks := o.tasks.insert path task }
  o.updateTask task fun t =>
    { t with resolved := host.resolvedProjectReference.lookup path, upStream := [] }

/-- One turn of the loop of `create_build_tasks`. A project that has its task already is
left alone; the task the code makes for it first is dropped unused. The fuel bounds the
depth of the recursion. -/
def createBuildTask (oldTasks : Option (HashMap Path Nat)) :
    Nat → Orchestrator → ConfigName → Outcome Orchestrator
  | 0, _, _ => .err "out of fuel"
  | fuel + 1, o, config =>
    match o.tasks.lookup (host.path config) with
    | some _ => .ok o
    | none =>
      let o := host.startTask oldTasks o config
      match host.resolvedProjectReference.lookup (host.path config) with
      | none => .ok o
      | some references =>
        (references.map ProjectReference.config).foldlM (createBuildTask oldTasks fuel) o

def createBuildTasks (oldTasks : Option (HashMap Path Nat)) (fuel : Nat) (configs : List ConfigName)
    (o : Orchestrator) : Outcome Orchestrator :=
  configs.foldlM (host.createBuildTask oldTasks fuel) o

structure Setup where
  orchestrator : Orchestrator
  completed : Finset Path
  analyzing : Finset Path

/-- A completed task waits for the report of the task before it. -/
def completeTask (st : Setup) (config : ConfigName) (path : Path) (task : Nat) : Outcome Setup :=
  let o := st.orchestrator
  let completed := insert path st.completed
  match o.order.getLast? with
  | none => .ok { st with orchestrator := { o with order := o.order ++ [config] }, completed := completed }
  | some prev =>
    (o.getTask (host.path prev)).bind fun prevTask =>
    let o := o.setPrevReporter task prevTask
    .ok { st with orchestrator := { o with order := o.order ++ [config] }, completed := completed }

/-- The end of a visit: in watch mode the referenced task learns who depends on it. -/
def linkDownStream (downStream : Option Nat) (task : Nat) (st : Setup) : Setup :=
  match host.watch, downStream with
  | true, some down => { st with orchestrator := st.orchestrator.pushDownStream task down }
  | _, _ => st

/-- A referenced task that has been completed becomes an upstream task. -/
def linkUpStream (task refIndex : Nat) (result : Option Nat × Setup) : Setup :=
  match result.1 with
  | some upstream =>
    { result.2 with orchestrator := result.2.orchestrator.pushUpStream task upstream refIndex }
  | none => result.2

def setupBuildTask : Nat → ConfigName → Option Nat → Bool → List ConfigName → Setup →
    Outcome (Option Nat × Setup)
  | 0, _, _, _, _, _ => .err "out of fuel"
  | fuel + 1, config, downStream, inCircularContext, circularityStack, st =>
    let path := host.path config
    (st.orchestrator.getTask path).bind fun task =>
    if path ∈ st.completed then .ok (some task, host.linkDownStream downStream task st)
    else if path ∈ st.analyzing then
      let o := st.orchestrator
      let errors := if inCircularContext then o.errors else o.errors ++ [circularityStack]
      .ok (none, { st with orchestrator := { o with errors := errors } })
    else
      let st := { st with analyzing := insert path st.analyzing }
      let resolved := ((st.orchestrator.heap[task]?).bind BuildTask.resolved).getD []
      (resolved.zipIdx.foldlM (fun st reference =>
        (setupBuildTask fuel reference.1.config (some task)
          (inCircularContext || reference.1.circular) (circularityStack ++ [config]) st).bind
          fun result => .ok (linkUpStream task reference.2 result)) st).bind fun st =>
      (host.completeTask st config path task).bind fun st =>
      .ok (some task, host.linkDownStream downStream task st)

/-- No recursion is deeper than the config files there are, and one project without one. -/
def fuel : Nat := host.resolvedProjectReference.keys.card + 1

def generateGraph (oldTasks : Option (HashMap Path Nat)) (o : Orchestrator) : Outcome Orchestrator :=
  (host.createBuildTasks oldTasks host.fuel host.resolvedProjectPaths o).bind fun o =>
  (host.resolvedProjectPaths.foldlM (fun st project =>
    (host.setupBuildTask host.fuel project none false [] st).bind fun result => .ok result.2)
    (⟨o, ∅, ∅⟩ : Setup)).bind fun st =>
  .ok st.orchestrator

def generateGraphReusingOldTasks (o : Orchestrator) : Outcome Orchestrator :=
  host.generateGraph (some o.tasks) { o with tasks := ∅, order := [], errors := [] }

end Host

end TypeScriptRs.Build
