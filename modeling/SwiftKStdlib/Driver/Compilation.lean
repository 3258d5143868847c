import SwiftKStdlib.Driver.DependencyGraph
import Mathlib.Logic.Relation

/-!
# Performing the jobs of a compilation

* `Compilation` : the jobs, with the order of the inputs in a field;
* `PerformJobsState` : the sets of commands, the dependency graph and the task queue;
* `scheduleInitialJobs`, `scheduleAdditionalJobs`, `taskFinished`, `taskSignalled`, `skipDeferred`;
* `Step`, `Reachable` : `runTaskQueueToCompletion`, with tasks that end in any order.
-/

namespace SwiftKStdlib.Driver

/-- `Job::Condition`. -/
inductive Condition where
  | always
  | runWithoutCascading
  | checkDependencies
  | newlyAdded
  deriving DecidableEq, Repr

structure Compilation (Job : Type) where
  jobs : List Job
  inputs : Job → List Job
  condition : Job → Condition
  /-- Whether the output of the job has a file of type `TY_SwiftDeps`. -/
  hasDependenciesFile : Job → Bool
  enableIncrementalBuild : Bool
  continueBuildingAfterErrors : Bool
  nodup_jobs : jobs.Nodup
  inputs_mem : ∀ j ∈ jobs, ∀ i ∈ inputs j, i ∈ jobs
  acyclic : ∀ j ∈ jobs, ¬ Relation.TransGen (fun i k => i ∈ inputs k) j j

/-- An order in which the elements of a hash set come. -/
structure Iteration (α : Type) where
  toList : Finset α → List α
  mem_toList : ∀ s a, a ∈ toList s ↔ a ∈ s
  nodup_toList : ∀ s, (toList s).Nodup

structure PerformJobsState (Job : Type) where
  scheduledCommands : Finset Job
  finishedCommands : Finset Job
  blockingCommands : AList fun _ : Job => List Job
  deferredCommands : Finset Job
  initialOutOfDateCommands : List Job
  depGraph : DependencyGraph Job
  result : Int
  anyAbnormalExit : Bool
  /-- `Comp.getIncrementalBuildEnabled()`. -/
  incrementalBuildEnabled : Bool
  /-- The tasks of `TQ` that have not ended. -/
  tasks : List Job
  /-- Every call of `addTask`, with the `FinishedCommands` of that time. -/
  added : List (Job × Finset Job)
  /-- The calls of `markFinished` with `Skipped`. -/
  skipped : List Job
  /-- What the marking functions have reported of the `DeferredCommands` of that time. -/
  reported : List Job

abbrev DependenciesFile := Option (Option Yaml)

inductive TaskFinishedResponse where
  | continueExecution
  | stopExecution
  deriving DecidableEq, Repr

variable {Job : Type} [DecidableEq Job]

def DependencyGraph.loadFromPath (g : DependencyGraph Job) (node : Job) (file : DependenciesFile) :
    DependencyGraph Job × LoadResult :=
  match file with
  | none => (g, .hadError)
  | some root => g.loadFromBuffer node root

namespace PerformJobsState

def init (comp : Compilation Job) : PerformJobsState Job where
  scheduledCommands := ∅
  finishedCommands := ∅
  blockingCommands := ∅
  deferredCommands := ∅
  initialOutOfDateCommands := []
  depGraph := .empty
  result := 0
  anyAbnormalExit := false
  incrementalBuildEnabled := comp.enableIncrementalBuild
  tasks := []
  added := []
  skipped := []
  reported := []

variable (comp : Compilation Job) (s : PerformJobsState Job)

def findUnfinishedJob (jobs : List Job) : Option Job := jobs.find? (· ∉ s.finishedCommands)

def scheduleCommandIfNecessaryAndPossible (cmd : Job) : PerformJobsState Job :=
  if cmd ∈ s.scheduledCommands then s
  else
    match s.findUnfinishedJob (comp.inputs cmd) with
    | some blocking =>
      let blocked := (s.blockingCommands.lookup blocking).getD [] ++ [cmd]
      { s with blockingCommands := s.blockingCommands.insert blocking blocked }
    | none =>
      { s with
        scheduledCommands := insert cmd s.scheduledCommands
        tasks := s.tasks ++ [cmd]
        added := s.added ++ [(cmd, s.finishedCommands)] }

def scheduleCommands (cmds : List Job) : PerformJobsState Job :=
  cmds.foldl (fun s cmd => s.scheduleCommandIfNecessaryAndPossible comp cmd) s

def markFinished (cmd : Job) (skipped : Bool) : PerformJobsState Job :=
  let s := { s with
    finishedCommands := insert cmd s.finishedCommands
    skipped := if skipped then s.skipped ++ [cmd] else s.skipped }
  match s.blockingCommands.lookup cmd with
  | none => s
  | some allBlocked =>
    scheduleCommands comp { s with blockingCommands := s.blockingCommands.erase cmd } allBlocked

def dependencyLoadFailed (order : Iteration Job) : PerformJobsState Job :=
  let s := scheduleCommands comp { s with incrementalBuildEnabled := false } (order.toList s.deferredCommands)
  { s with deferredCommands := ∅ }

/-- A call of `markTransitive` for `cmd`, with what it reports. -/
def markTransitive (cmd : Job) : PerformJobsState Job × List Job :=
  let (depGraph, visited) := s.depGraph.markTransitive [] cmd
  ({ s with depGraph, reported := s.reported ++ visited.filter (· ∈ s.deferredCommands) }, visited)

/-- The state and the `Dependents`. -/
def reloadAndRemarkDeps (order : Iteration Job) (finishedCmd : Job) (returnCode : Int)
    (file : DependenciesFile) : PerformJobsState Job × List Job :=
  if !comp.hasDependenciesFile finishedCmd then (s, [])
  else if returnCode = 0 ∨ returnCode = 1 then
    let wasCascading := s.depGraph.isMarked finishedCmd
    let (depGraph, loadResult) := s.depGraph.loadFromPath finishedCmd file
    let s := { s with depGraph }
    match loadResult with
    | .hadError => if returnCode = 0 then (s.dependencyLoadFailed comp order, []) else (s, [])
    | .upToDate => if wasCascading then s.markTransitive finishedCmd else (s, [])
    | .affectsDownstream => s.markTransitive finishedCmd
  else
    match comp.condition finishedCmd with
    | .newlyAdded | .runWithoutCascading => s.markTransitive finishedCmd
    | .always | .checkDependencies => (s, [])

/-- The loop over the `Dependents`. -/
def scheduleDependents (dependents : List Job) : PerformJobsState Job :=
  dependents.foldl (fun s cmd =>
    scheduleCommandIfNecessaryAndPossible comp
      { s with deferredCommands := s.deferredCommands.erase cmd } cmd) s

def taskFinished (order : Iteration Job) (finishedCmd : Job) (returnCode : Int) (file : DependenciesFile) :
    PerformJobsState Job × TaskFinishedResponse :=
  let (s, dependents) :=
    if s.incrementalBuildEnabled then s.reloadAndRemarkDeps comp order finishedCmd returnCode file
    else (s, [])
  if returnCode ≠ 0 then
    ({ s with result := if s.result = 0 then returnCode else s.result },
      if comp.continueBuildingAfterErrors then .continueExecution else .stopExecution)
  else
    ((s.markFinished comp finishedCmd false).scheduleDependents comp dependents, .continueExecution)

def taskSignalled : PerformJobsState Job × TaskFinishedResponse :=
  ({ s with result := -2, anyAbnormalExit := true }, .stopExecution)

/-! ## The initial jobs -/

/-- The first `switch`: the condition under which the job is handled, or `llvm_unreachable`. -/
def loadInitial (order : Iteration Job) (file : DependenciesFile) (cmd : Job) :
    Option (PerformJobsState Job × Condition) :=
  if !comp.hasDependenciesFile cmd then some (s, .always)
  else if comp.condition cmd = .newlyAdded then
    some ({ s with depGraph := s.depGraph.addIndependentNode cmd }, .always)
  else
    let (depGraph, loadResult) := s.depGraph.loadFromPath cmd file
    let s := { s with depGraph }
    match loadResult with
    | .hadError => some (s.dependencyLoadFailed comp order, .always)
    | .upToDate => some (s, comp.condition cmd)
    | .affectsDownstream => none

/-- The second `switch`. -/
def handleInitial (cmd : Job) : Condition → Option (PerformJobsState Job)
  | .always =>
    let s :=
      if s.incrementalBuildEnabled && comp.hasDependenciesFile cmd then
        { s with
          initialOutOfDateCommands := s.initialOutOfDateCommands ++ [cmd]
          depGraph := (s.depGraph.markIntransitive cmd).1 }
      else s
    some (s.scheduleCommandIfNecessaryAndPossible comp cmd)
  | .runWithoutCascading => some (s.scheduleCommandIfNecessaryAndPossible comp cmd)
  | .checkDependencies => some { s with deferredCommands := insert cmd s.deferredCommands }
  | .newlyAdded => none

/-- One job of the loop in `scheduleInitialJobs`. -/
def scheduleInitial (order : Iteration Job) (files : Job → DependenciesFile) (cmd : Job) :
    Option (PerformJobsState Job) :=
  if !s.incrementalBuildEnabled then some (s.scheduleCommandIfNecessaryAndPossible comp cmd)
  else
    match s.loadInitial comp order (files cmd) cmd with
    | none => none
    | some (s, condition) => s.handleInitial comp cmd condition

/-- `none` where the source would reach `llvm_unreachable`. -/
def scheduleInitialJobs (order : Iteration Job) (files : Job → DependenciesFile) :
    Option (PerformJobsState Job) :=
  comp.jobs.foldlM (fun s cmd => s.scheduleInitial comp order files cmd) (init comp)

/-! ## The additional jobs -/

/-- The calls of `markTransitive` and of `markExternal`. -/
def markAdditional (initial : List Job) (externals : List String) (g : DependencyGraph Job) :
    DependencyGraph Job × List Job :=
  let marked := initial.foldl (fun (s : DependencyGraph Job × List Job) cmd => s.1.markTransitive s.2 cmd) (g, [])
  externals.foldl (fun s external => s.1.markExternal s.2 external) marked

/-- The loop over the `AdditionalOutOfDateCommands`. -/
def scheduleAdditional (additional : List Job) : PerformJobsState Job :=
  additional.foldl (fun s cmd =>
    if cmd ∉ s.deferredCommands then s
    else
      let s := s.scheduleCommandIfNecessaryAndPossible comp cmd
      { s with deferredCommands := s.deferredCommands.erase cmd }) s

/-- `isUpToDate` tells the external dependencies that are older than the last build. -/
def scheduleAdditionalJobs (order : Iteration String) (isUpToDate : String → Bool) : PerformJobsState Job :=
  if !s.incrementalBuildEnabled then s
  else
    let externals := (order.toList s.depGraph.externalDependencies).filter (!isUpToDate ·)
    let (depGraph, additional) := markAdditional s.initialOutOfDateCommands externals s.depGraph
    let reported := s.reported ++ additional.filter (· ∈ s.deferredCommands)
    scheduleAdditional comp { s with depGraph, reported } additional

/-! ## The task queue -/

/-- What is left deferred when the task queue has drained is skipped. -/
def skipDeferred (order : Iteration Job) : PerformJobsState Job :=
  let s := (order.toList s.deferredCommands).foldl (fun s cmd =>
    markFinished comp { s with scheduledCommands := insert cmd s.scheduledCommands } cmd true) s
  { s with deferredCommands := ∅ }

/-- The jobs whose files still need to be rebuilt, or `none` where an assertion fails. -/
def checkUnfinishedJobs : Option (List (Job × Bool)) :=
  if s.result = 0 then
    if s.blockingCommands.keys = [] then some [] else none
  else
    some ((comp.jobs.filter fun cmd => comp.hasDependenciesFile cmd && cmd ∉ s.finishedCommands &&
      cmd ∈ s.scheduledCommands).map fun cmd => (cmd, !s.incrementalBuildEnabled || s.depGraph.isMarked cmd))

end PerformJobsState

inductive Outcome where
  | finished (returnCode : Int) (file : DependenciesFile)
  | signalled

def Outcome.Succeeds : Outcome → Prop
  | .finished returnCode _ => returnCode = 0
  | .signalled => False

/-- Inside `TQ->execute`, with whether a task has stopped it, or after the loop. -/
inductive Phase where
  | executing (stopped : Bool)
  | ended
  deriving DecidableEq, Repr

structure Config (Job : Type) where
  state : PerformJobsState Job
  phase : Phase
  /-- The tasks that have ended. -/
  ended : List (Job × Outcome)

/-- The callback for a task that has ended. -/
def PerformJobsState.taskEnds (comp : Compilation Job) (s : PerformJobsState Job) (order : Iteration Job)
    (cmd : Job) : Outcome → PerformJobsState Job × TaskFinishedResponse
  | .finished returnCode file => s.taskFinished comp order cmd returnCode file
  | .signalled => s.taskSignalled

namespace Compilation

variable (comp : Compilation Job)

/-- `runTaskQueueToCompletion`: any task may be the next to end, also after another has stopped the
execution. -/
inductive Step : Config Job → Config Job → Prop
  | task {s ended} (stopped : Bool) (order : Iteration Job) (cmd : Job) (hcmd : cmd ∈ s.tasks)
      (outcome : Outcome) {s' response} (hends : s.taskEnds comp order cmd outcome = (s', response)) :
      Step ⟨s, .executing stopped, ended⟩
        ⟨{ s' with tasks := s'.tasks.erase cmd }, .executing (stopped || response = .stopExecution),
          ended ++ [(cmd, outcome)]⟩
  | skip {s ended stopped} (order : Iteration Job) (hdrained : s.tasks = [] ∨ stopped = true)
      {s' : PerformJobsState Job} (hskip : s.skipDeferred comp order = s') :
      Step ⟨s, .executing stopped, ended⟩
        ⟨s', if s'.result = 0 ∧ s'.tasks ≠ [] then .executing false else .ended, ended⟩

/-- The state before the task queue is first executed. -/
def Starts (s : PerformJobsState Job) : Prop :=
  ∃ commands : Iteration Job, ∃ files externals isUpToDate s₀,
    PerformJobsState.scheduleInitialJobs comp commands files = some s₀ ∧
      s = s₀.scheduleAdditionalJobs comp externals isUpToDate

/-- What a run of `runTaskQueueToCompletion` can come to. -/
def Reachable (cfg : Config Job) : Prop :=
  ∃ s, comp.Starts s ∧ Relation.ReflTransGen comp.Step ⟨s, .executing false, []⟩ cfg

end Compilation

end SwiftKStdlib.Driver
