import Haruspex.Library.KeyedMap
import Haruspex.Library.Runs
import Mathlib.Data.Nat.Notation

/-! The job runner (`agent/jobs/runner.svelte.ts`). `enqueue` awaits until its run has a row; what it does from
there is one step, as are a drain and whatever settles a run. The rows' ids come from an AUTOINCREMENT column. -/
namespace Haruspex.JobRuns
open KeyedMap
set_option autoImplicit false

/-! ## Jobs and settings -/

inductive RunTrigger where
  | manual
  | scheduled
  | chained
  deriving DecidableEq, Repr

/-- What the runner reads of a job; `model` is what its model columns name. -/
structure Job (B : Type) where
  id : ℕ
  jobType : String
  workingDir : Option String
  hasSteps : Bool
  model : Option B

/-- What the runner reads of a job type's definition. -/
structure JobTypeDefinition where
  hasPlannedSteps : Bool
  supportsSchedule : Option Bool

structure Settings (R : Type) where
  jobsOneAtATime : Bool
  leanMode : Bool
  rest : R

/-- A backend, as far as its lane depends on it (`inference/descriptor.ts`). -/
structure Descriptor where
  isLocal : Bool
  baseUrl : String
  allowParallel : Bool
  parallelSlots : Option ℕ

/-- The job types, and which backend a job's turns run against. -/
structure Host (B R : Type) where
  getJobType : String → Option JobTypeDefinition
  resolveBackendDescriptor : Settings R → Option B → Descriptor

/-- The lane of a backend, and how many turns it admits (`agent/inferenceQueue.svelte.ts`). -/
def laneFor (descriptor : Descriptor) : String × Option ℕ :=
  if descriptor.isLocal then ("local", some (descriptor.parallelSlots.getD 1))
  else if descriptor.allowParallel then ("remote:" ++ descriptor.baseUrl, descriptor.parallelSlots)
  else ("remote:" ++ descriptor.baseUrl, some 1)

/-! ## The runner -/

structure QueuedRun (B : Type) where
  runId : ℕ
  job : Job B
  trigger : RunTrigger

/-- What a started run holds until it settles. -/
structure Admitted where
  jobId : ℕ
  lane : String
  workingDir : String
  asksUser : Bool
  deriving DecidableEq

inductive RunStatus where
  | running
  | succeeded
  | failed
  | cancelled
  | needsInput
  deriving DecidableEq, Repr

structure RunState where
  id : ℕ
  jobId : ℕ
  status : RunStatus
  deriving DecidableEq

/-- A call of `runPipeline`, and what was going on when it came. -/
structure Pipeline (B R : Type) where
  queued : QueuedRun B
  settings : Settings R
  others : List Admitted

/-- `drains` counts the microtasks that are to drain the queue. -/
structure Runner (B R : Type) where
  runs : List RunState
  focusedId : Option ℕ
  pending : List (QueuedRun B)
  admitted : Dict ℕ Admitted
  settings : Settings R
  drains : ℕ
  pipelines : List (Pipeline B R)

def isActive (run : RunState) : Bool := run.status = .running || run.status = .needsInput

namespace Runner

section
variable {B R : Type} (host : Host B R) (r : Runner B R)

def liveRun (runId : ℕ) : Option RunState := r.runs.find? fun run => run.id = runId

def getCurrentRun : Option RunState := r.runs.find? fun run => some run.id = r.focusedId

def getActiveRuns : List RunState := r.runs.filter isActive

/-- `admitted.values()` -/
def others : List Admitted := r.admitted.entries.map Sigma.snd

def laneKey (job : Job B) : String := (laneFor (host.resolveBackendDescriptor r.settings job.model)).1

def laneConcurrency (job : Job B) : Option ℕ := (laneFor (host.resolveBackendDescriptor r.settings job.model)).2

/-- Lean mode pauses every type but research. -/
def pausedByLean (jobType : String) : Bool := r.settings.leanMode && jobType ≠ "research"

/-- The job types that cannot be scheduled are the ones that interview the user. -/
def asksUser (job : Job B) : Bool :=
  ((host.getJobType job.jobType).bind JobTypeDefinition.supportsSchedule) = some false

def admission (job : Job B) : Admitted where
  jobId := job.id
  lane := r.laneKey host job
  workingDir := job.workingDir.getD ""
  asksUser := asksUser host job

/-- Whether a job may start beside the runs going now. -/
def canStart (job : Job B) : Bool :=
  if r.others.isEmpty then true
  else if r.settings.jobsOneAtATime || r.settings.leanMode then false
  else
    let me := r.admission host job
    if r.others.any fun o => o.jobId = me.jobId then false
    else if me.asksUser && r.others.any Admitted.asksUser then false
    else if me.workingDir ≠ "" && r.others.any fun o => o.workingDir = me.workingDir then false
    else
      match r.laneConcurrency host job with
      | none => true
      | some limit => (r.others.filter fun o => o.lane = me.lane).length < limit

/-- The run view moves to a new run unless it shows one still going; a finished run it showed goes, unless that
one is still settling. -/
def startRun (queued : QueuedRun B) : Runner B R :=
  let admitted := r.admitted.insert queued.runId (r.admission host queued.job)
  let run : RunState := ⟨queued.runId, queued.job.id, .running⟩
  let started : Runner B R :=
    { r with admitted := admitted, pipelines := r.pipelines ++ [⟨queued, r.settings, r.others⟩] }
  match r.getCurrentRun with
  | none => { started with runs := r.runs ++ [run], focusedId := some queued.runId }
  | some shown =>
    if isActive shown then { started with runs := r.runs ++ [run] }
    else
      { started with
        runs := (r.runs.filter fun x => x.id ≠ shown.id || (admitted.lookup x.id).isSome) ++ [run]
        focusedId := some queued.runId }

/-- One round of `drain`. Runs in the queue are told apart by their ids. -/
def drainNext (next : QueuedRun B) : Runner B R :=
  if r.canStart host next.job then
    startRun host { r with pending := r.pending.filter fun q => q.runId ≠ next.runId } next
  else r

/-- Start every queued run that may start now, in queue order. -/
def drain : Runner B R := r.pending.foldl (fun r next => r.drainNext host next) r

/-- A chain's next stage goes ahead of runs queued by hand, behind any chained run already queued. -/
def insertQueued (queued : QueuedRun B) (pending : List (QueuedRun B)) : List (QueuedRun B) :=
  if queued.trigger = .chained then
    (pending.takeWhile fun q => q.trigger = .chained) ++ queued :: pending.dropWhile fun q => q.trigger = .chained
  else pending ++ [queued]

/-- The end of `enqueue`, once the run has a row. -/
def place (queued : QueuedRun B) : Runner B R :=
  if r.canStart host queued.job then r.startRun host queued
  else { r with pending := insertQueued queued r.pending }

def onSettled (runId : ℕ) : Runner B R :=
  { r with
    admitted := r.admitted.erase runId
    runs := if r.focusedId ≠ some runId then r.runs.filter fun run => run.id ≠ runId else r.runs
    drains := if r.pending.isEmpty then r.drains else r.drains + 1 }

def removeQueuedRun (runId : ℕ) : Runner B R := { r with pending := r.pending.filter fun q => q.runId ≠ runId }

def removeQueuedRunsForJob (jobId : ℕ) : Runner B R := { r with pending := r.pending.filter fun q => q.job.id ≠ jobId }

def setOneRunAtATime (on : Bool) : Runner B R :=
  let r := { r with settings := { r.settings with jobsOneAtATime := on } }
  if on then r else r.drain host

def setStatus (runId : ℕ) (status : RunStatus) : Runner B R :=
  { r with runs := r.runs.map fun run => if run.id = runId then { run with status := status } else run }

def clearCurrentRun : Runner B R :=
  match r.getCurrentRun with
  | none => { r with focusedId := r.getActiveRuns.head?.map RunState.id }
  | some shown =>
    if shown.status = .running then r
    else
      let runs := if (r.admitted.lookup shown.id).isSome then r.runs else r.runs.filter fun x => x.id ≠ shown.id
      { r with runs := runs, focusedId := ((runs.filter isActive).find? fun x => x.id ≠ shown.id).map RunState.id }

def focusRun (runId : ℕ) : Runner B R := if (r.liveRun runId).isSome then { r with focusedId := some runId } else r

end

end Runner

/-! ## Interleavings -/

/-- The runner, the rows of runs whose `enqueue` has not gone on, the runs it has returned the ids of, and the
runs that were taken out of the queue. -/
structure World (B R : Type) where
  runner : Runner B R
  nextRun : ℕ
  created : List (QueuedRun B)
  returned : List (QueuedRun B)
  removed : List (QueuedRun B)

inductive Act (B R : Type) where
  | create (job : Job B) (trigger : RunTrigger) (available : Bool)
  | goOn (runId : ℕ)
  | settle (runId : ℕ)
  | drainDue
  | removeQueuedRun (runId : ℕ)
  | removeQueuedRunsForJob (jobId : ℕ)
  | setOneRunAtATime (on : Bool)
  | changeSettings (settings : Settings R)
  | setStatus (runId : ℕ) (status : RunStatus)
  | clearCurrentRun
  | focusRun (runId : ℕ)

namespace World

variable {B R : Type} (host : Host B R)

/-- Before its run has a row, `enqueue` refuses a job of no known type, one that lean mode pauses, one whose type
is not available, and one without the steps its type plans by. -/
def mayCreate (r : Runner B R) (job : Job B) (available : Bool) : Bool :=
  match host.getJobType job.jobType with
  | none => false
  | some definition =>
    !r.pausedByLean job.jobType && available && !(definition.hasPlannedSteps && !job.hasSteps)

def act : Act B R → World B R → World B R
  | .create job trigger available, w =>
    if mayCreate host w.runner job available then
      { w with nextRun := w.nextRun + 1, created := w.created ++ [⟨w.nextRun, job, trigger⟩] }
    else w
  | .goOn runId, w =>
    match w.created.find? fun q => q.runId = runId with
    | none => w
    | some queued =>
      { w with
        runner := w.runner.place host queued
        created := w.created.filter fun q => q.runId ≠ runId
        returned := w.returned ++ [queued] }
  | .settle runId, w => { w with runner := w.runner.onSettled runId }
  | .drainDue, w =>
    if w.runner.drains = 0 then w
    else { w with runner := { w.runner with drains := w.runner.drains - 1 }.drain host }
  | .removeQueuedRun runId, w =>
    { w with
      runner := w.runner.removeQueuedRun runId
      removed := w.removed ++ w.runner.pending.filter fun q => q.runId = runId }
  | .removeQueuedRunsForJob jobId, w =>
    { w with
      runner := w.runner.removeQueuedRunsForJob jobId
      removed := w.removed ++ w.runner.pending.filter fun q => q.job.id = jobId }
  | .setOneRunAtATime on, w => { w with runner := w.runner.setOneRunAtATime host on }
  | .changeSettings settings, w => { w with runner := { w.runner with settings := settings } }
  | .setStatus runId status, w => { w with runner := w.runner.setStatus runId status }
  | .clearCurrentRun, w => { w with runner := w.runner.clearCurrentRun }
  | .focusRun runId, w => { w with runner := w.runner.focusRun runId }

/-- Before the first run. -/
def fresh (settings : Settings R) (nextRun : ℕ) : World B R :=
  ⟨⟨[], none, [], ∅, settings, 0, []⟩, nextRun, [], [], []⟩

end World

end Haruspex.JobRuns
