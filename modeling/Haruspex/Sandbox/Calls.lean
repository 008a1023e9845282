import Haruspex.Library.KeyedMap
import Haruspex.Library.Runs
import Mathlib.Logic.Function.Basic

/-! Calls of the sandbox's worker (`sandbox/workerManager.ts`). The promises behind a call go on one microtask at a
time, and a timer may fire whenever it is armed. Ids of calls and of syncs are drawn at random; here they are counted.
What a call prints and shows is left out. -/
namespace Haruspex.Sandbox.Calls
open KeyedMap
set_option autoImplicit false

/-! ## Calls and timers -/

inductive CallKind where
  | run
  | install
  | listGlobals
  deriving DecidableEq, Repr

/-- What a call's promise goes on from. -/
inductive Phase where
  /-- Among `readyWaiters`. -/
  | waiting
  | woken (error : Option String)
  /-- On the answer to `sandbox_set_network`. -/
  | policy
  | policySet
  /-- On the answer to `sandbox_sync_workdir`. -/
  | sync
  /-- Among `pendingSyncs`. -/
  | ack (syncId : ℕ)
  | synced
  | finished
  deriving DecidableEq, Repr

structure Call where
  kind : CallKind
  phase : Phase
  deriving DecidableEq, Repr

inductive TimerKind where
  | boot
  | exec (id : ℕ)
  | install (id : ℕ)
  | fallback (id : ℕ)
  | globals (id : ℕ)
  deriving DecidableEq, Repr

/-- The run a timer is there for. -/
def TimerKind.run : TimerKind → Option ℕ
  | .exec id => some id
  | .install id => some id
  | .fallback id => some id
  | .boot => none
  | .globals _ => none

structure PendingRun where
  timer : Option ℕ
  execTimeoutMs : ℕ
  installWatchdog : Option ℕ
  terminateFallback : Option ℕ
  interrupted : Bool
  deriving DecidableEq, Repr

def PendingRun.timers (p : PendingRun) : List (Option ℕ) := [p.timer, p.installWatchdog, p.terminateFallback]

inductive Outcome where
  | resolved
  | rejected (reason : String)
  deriving DecidableEq, Repr

/-- `armed` says what each timer that has been set and not cleared is for; `settled` and `posted` are the calls whose
promises were settled, and those whose code was posted with the worker it went to, in order. -/
structure Manager where
  isolated : Bool
  bootTimeoutMs : ℕ
  worker : Option ℕ
  spawned : ℕ
  ready : Bool
  readyError : Option String
  readyWaiters : List ℕ
  bootTimer : Option ℕ
  interruptBuffer : Bool
  pending : Dict ℕ PendingRun
  pendingGlobals : Dict ℕ ℕ
  pendingSyncs : Dict ℕ ℕ
  armed : ℕ → Option TimerKind
  nextTimer : ℕ
  calls : ℕ → Option Call
  nextCall : ℕ
  nextSync : ℕ
  settled : List (ℕ × Outcome)
  posted : List (ℕ × ℕ)

/-- Timers cleared; one that has fired already stays as it is. -/
def disarm (armed : ℕ → Option TimerKind) (timers : List (Option ℕ)) : ℕ → Option TimerKind :=
  fun t => if some t ∈ timers then none else armed t

namespace Manager

section
variable (m : Manager)

/-- `setTimeout`; the timer is `m.nextTimer`. -/
def setTimer (kind : TimerKind) : Manager :=
  { m with armed := Function.update m.armed m.nextTimer (some kind), nextTimer := m.nextTimer + 1 }

def clearTimers (timers : List (Option ℕ)) : Manager := { m with armed := disarm m.armed timers }

def setPhase (id : ℕ) (phase : Phase) : Manager :=
  { m with calls := Function.update m.calls id ((m.calls id).map fun c => { c with phase := phase }) }

def settle (id : ℕ) (outcome : Outcome) : Manager := { m with settled := m.settled ++ [(id, outcome)] }

/-! ## The worker -/

def clearBootTimer : Manager := { m.clearTimers [m.bootTimer] with bootTimer := none }

def spawn : Manager :=
  let m := { m with worker := some m.spawned, spawned := m.spawned + 1, ready := false, readyError := none }
  let m := m.clearBootTimer
  { m.setTimer .boot with bootTimer := some m.nextTimer, interruptBuffer := m.isolated }

def ensureWorker : Manager := if m.worker.isSome then m else m.spawn

/-- `readyWaiters.splice(0).forEach((fn) => fn())` -/
def flush : Manager :=
  { m with
    readyWaiters := []
    calls := fun id =>
      if id ∈ m.readyWaiters then (m.calls id).map fun c => { c with phase := .woken m.readyError } else m.calls id }

def waitForReady (id : ℕ) : Manager :=
  let m := m.ensureWorker
  if m.ready then m.setPhase id (.woken none)
  else
    match m.readyError with
    | some error => m.setPhase id (.woken (some error))
    | none => { m.setPhase id .waiting with readyWaiters := m.readyWaiters ++ [id] }

/-- Reject every run in flight, clearing its timers. -/
def rejectAllPending (reason : String) : Manager :=
  { m.clearTimers (m.pending.entries.flatMap fun e => e.2.timers) with
    pending := ∅
    settled := m.settled ++ m.pending.entries.map fun e => (e.1, .rejected reason) }

def rejectSyncs : Manager :=
  { m with
    pendingSyncs := ∅
    calls := fun id =>
      if id ∈ m.pendingSyncs.entries.map Sigma.snd then (m.calls id).map fun c => { c with phase := .synced }
      else m.calls id }

def resolveGlobals : Manager :=
  { m.clearTimers (m.pendingGlobals.entries.map fun e => some e.2) with
    pendingGlobals := ∅
    settled := m.settled ++ m.pendingGlobals.entries.map fun e => (e.1, .resolved) }

def respawn : Manager :=
  let m := { { m with worker := none }.clearBootTimer with ready := false, readyError := none }
  ((m.rejectAllPending "sandbox reset").rejectSyncs).resolveGlobals

/-! ## Timers firing -/

/-- The seconds are rounded. -/
def bootMessage : String :=
  let secs := (m.bootTimeoutMs + 500) / 1000
  s!"Python didn't start within {secs} s, so nothing ran. Try once more, or do this without Python."

def onBootTimeout : Manager :=
  let m := { m with bootTimer := none }
  if m.ready || m.readyError.isSome then m
  else (({ m.rejectAllPending m.bootMessage with readyError := some m.bootMessage }).flush).respawn

/-- A run's timers are cleared, it leaves the runs in flight, and its worker goes. -/
def giveUp (id : ℕ) (p : PendingRun) (reason : String) : Manager :=
  ((({ m with pending := m.pending.erase id }).clearTimers p.timers).respawn).settle id (.rejected reason)

def escalateToTerminate (id : ℕ) : Manager :=
  match m.pending.lookup id with
  | none => m
  | some p =>
    let ms := p.execTimeoutMs
    m.giveUp id p s!"sandbox timeout after {ms}ms"

def onTimeout (id : ℕ) : Manager :=
  match m.pending.lookup id with
  | none => m
  | some p =>
    if m.interruptBuffer && !p.interrupted then
      { m.setTimer (.fallback id) with
        pending := m.pending.insert id { p with interrupted := true, terminateFallback := some m.nextTimer } }
    else m.escalateToTerminate id

def onInstallTimeout (id : ℕ) : Manager :=
  match m.pending.lookup id with
  | none => m
  | some p =>
    m.giveUp id p
      "sandbox package install stalled (no progress for 180000ms) — the download may have failed"

def onGlobalsTimeout (id : ℕ) : Manager :=
  if (m.pendingGlobals.lookup id).isSome then
    { m with pendingGlobals := m.pendingGlobals.erase id }.settle id .resolved
  else m

/-- A timer fires, if it is still armed. -/
def fire (t : ℕ) : Manager :=
  match m.armed t with
  | none => m
  | some kind =>
    let m := m.clearTimers [some t]
    match kind with
    | .boot => m.onBootTimeout
    | .exec id => m.onTimeout id
    | .install id => m.onInstallTimeout id
    | .fallback id => m.escalateToTerminate id
    | .globals id => m.onGlobalsTimeout id

/-! ## Messages of the worker -/

def handleReady : Manager := { m.clearBootTimer with ready := true }.flush

def handleLoadError (error : String) : Manager := { m.clearBootTimer with readyError := some error }.flush

def armInstallWatchdog (id : ℕ) : Manager :=
  match m.pending.lookup id with
  | none => m
  | some p =>
    let m := m.clearTimers [p.installWatchdog]
    { m.setTimer (.install id) with pending := m.pending.insert id { p with installWatchdog := some m.nextTimer } }

def handlePkgPhaseStart (id : ℕ) : Manager :=
  match m.pending.lookup id with
  | none => m
  | some p =>
    { m.clearTimers [p.timer] with pending := m.pending.insert id { p with timer := none } }.armInstallWatchdog id

def handleExecStart (id : ℕ) : Manager :=
  match m.pending.lookup id with
  | none => m
  | some p =>
    let m := m.clearTimers [p.installWatchdog, p.timer]
    { m.setTimer (.exec id) with
      pending := m.pending.insert id
        { p with installWatchdog := none, timer := some m.nextTimer, interrupted := false } }

def handleDone (id : ℕ) : Manager :=
  match m.pending.lookup id with
  | none => m
  | some p => { m.clearTimers p.timers with pending := m.pending.erase id }.settle id .resolved

def handleGlobals (id : ℕ) : Manager :=
  match m.pendingGlobals.lookup id with
  | none => m
  | some t => { m.clearTimers [some t] with pendingGlobals := m.pendingGlobals.erase id }.settle id .resolved

def handleSyncAck (syncId : ℕ) : Manager :=
  match m.pendingSyncs.lookup syncId with
  | none => m
  | some id => { m with pendingSyncs := m.pendingSyncs.erase syncId }.setPhase id .synced

def onWorkerError (message : String) : Manager :=
  ({ m.clearBootTimer with readyError := some message }.flush).rejectAllPending ("worker error: " ++ message)

inductive Message where
  | ready
  | loadError (error : String)
  | pkgPhaseStart (id : ℕ)
  | execStart (id : ℕ)
  | installProgress (id : ℕ)
  | done (id : ℕ)
  | globals (id : ℕ)
  | syncAck (syncId : ℕ)
  | error (message : String)

def onMessage : Message → Manager
  | .ready => m.handleReady
  | .loadError error => m.handleLoadError error
  | .pkgPhaseStart id => m.handlePkgPhaseStart id
  | .execStart id => m.handleExecStart id
  | .installProgress id => m.armInstallWatchdog id
  | .done id => m.handleDone id
  | .globals id => m.handleGlobals id
  | .syncAck syncId => m.handleSyncAck syncId
  | .error message => m.onWorkerError message

/-! ## Calls -/

/-- A new call, up to its first `await`. -/
def call (kind : CallKind) (timeoutMs : ℕ) : Manager :=
  let id := m.nextCall
  let m := { m with calls := Function.update m.calls id (some ⟨kind, .waiting⟩), nextCall := id + 1 }
  let m := if kind = .listGlobals then m else { m with pending := m.pending.insert id ⟨none, timeoutMs, none, none, false⟩ }
  m.waitForReady id

/-- Before its code is posted, a run that has been settled meanwhile is dropped. -/
def post (id : ℕ) : Manager :=
  let m := m.setPhase id .finished
  match m.pending.lookup id with
  | none => m
  | some p =>
    let m := { m.setTimer (.exec id) with pending := m.pending.insert id { p with timer := some m.nextTimer } }.ensureWorker
    { m with posted := m.posted ++ [(id, m.worker.getD 0)] }

def askGlobals (id : ℕ) : Manager :=
  ({ (m.setPhase id .finished).setTimer (.globals id) with
    pendingGlobals := m.pendingGlobals.insert id m.nextTimer }).ensureWorker

/-- The promise of a call is rejected: the worker never became ready. -/
def failCall (id : ℕ) (kind : CallKind) (error : String) : Manager :=
  let m := m.setPhase id .finished
  if kind = .listGlobals then m.settle id .resolved
  else
    match m.pending.lookup id with
    | none => m
    | some p => { m.clearTimers [p.timer] with pending := m.pending.erase id }.settle id (.rejected error)

/-- A call's promise goes on; `workdir` tells whether a working directory is set. -/
def goOn (id : ℕ) (workdir : Bool) : Manager :=
  match m.calls id with
  | none => m
  | some c =>
    match c.phase with
    | .woken (some error) => m.failCall id c.kind error
    | .woken none => if c.kind = .listGlobals then m.askGlobals id else m.setPhase id .policy
    | .policySet => if c.kind = .run then m.setPhase id (if workdir then .sync else .synced) else m.post id
    | .synced => m.post id
    | _ => m

def policyAnswered (id : ℕ) : Manager :=
  match m.calls id with
  | some ⟨_, .policy⟩ => m.setPhase id .policySet
  | _ => m

/-- The folder's files are there; `post` tells whether there is anything to post to the worker. -/
def syncAnswered (id : ℕ) (post : Bool) : Manager :=
  match m.calls id with
  | some ⟨_, .sync⟩ =>
    if post then
      ({ m.setPhase id (.ack m.nextSync) with
        pendingSyncs := m.pendingSyncs.insert m.nextSync id, nextSync := m.nextSync + 1 }).ensureWorker
    else m.setPhase id .synced
  | _ => m

end

end Manager

/-! ## Interleavings -/

inductive Act where
  | call (kind : CallKind) (timeoutMs : ℕ)
  | goOn (id : ℕ) (workdir : Bool)
  | policyAnswered (id : ℕ)
  | syncAnswered (id : ℕ) (post : Bool)
  | message (message : Manager.Message)
  | fire (t : ℕ)
  | reset

/-- A worker that was terminated sends nothing any more. -/
def act : Act → Manager → Manager
  | .call kind timeoutMs, m => m.call kind timeoutMs
  | .goOn id workdir, m => m.goOn id workdir
  | .policyAnswered id, m => m.policyAnswered id
  | .syncAnswered id post, m => m.syncAnswered id post
  | .message message, m => if m.worker.isSome then m.onMessage message else m
  | .fire t, m => m.fire t
  | .reset, m => m.respawn

def fresh (isolated : Bool) (bootTimeoutMs : ℕ) : Manager where
  isolated := isolated
  bootTimeoutMs := bootTimeoutMs
  worker := none
  spawned := 0
  ready := false
  readyError := none
  readyWaiters := []
  bootTimer := none
  interruptBuffer := false
  pending := ∅
  pendingGlobals := ∅
  pendingSyncs := ∅
  armed := fun _ => none
  nextTimer := 0
  calls := fun _ => none
  nextCall := 0
  nextSync := 0
  settled := []
  posted := []

end Haruspex.Sandbox.Calls
