import Mathlib.Data.List.Sort
import Mathlib.Data.Nat.Notation

/-! The background-task registry (`tasks/mod.rs`): the records in memory and what each operation does
to them under the lock. -/
namespace Haruspex.Tasks
set_option autoImplicit false

inductive TaskKind where
  | videoRender
  | youtubeUpload
  | image
  | music
  | video
  deriving DecidableEq

inductive TaskState where
  | pending
  | running
  | done
  | failed
  | cancelled
  deriving DecidableEq

def TaskState.ended : TaskState → Bool
  | .done | .failed | .cancelled => true
  | _ => false

inductive TaskFollower where
  | rust
  | frontend
  deriving DecidableEq

/-- Numbers (`f64`) and JSON values are kept and copied, never looked into. -/
structure BackgroundTask (F J : Type) where
  id : String
  kind : TaskKind
  owner : String
  label : String
  state : TaskState
  follower : TaskFollower
  percent : Option F
  etaSecs : Option F
  phase : Option String
  queuePosition : Option ℕ
  spec : J
  handle : Option J
  result : Option J
  error : Option String
  logTail : Option String
  startedMs : ℕ
  endedMs : Option ℕ
  noticeDelivered : Bool
  deriving DecidableEq

structure TaskPatch (F J : Type) where
  state : Option TaskState
  percent : Option F
  etaSecs : Option F
  phase : Option String
  queuePosition : Option ℕ
  handle : Option J
  result : Option J
  error : Option String
  logTail : Option String

variable {F J : Type}

namespace TaskPatch

def progressOnly (p : TaskPatch F J) : Bool :=
  p.state.isNone && p.handle.isNone && p.result.isNone && p.error.isNone && p.logTail.isNone

variable [OfNat F 100]

def apply (p : TaskPatch F J) (t : BackgroundTask F J) (nowMs : ℕ) : BackgroundTask F J :=
  let t := { t with
    percent := p.percent.or t.percent
    etaSecs := p.etaSecs.or t.etaSecs
    phase := p.phase.or t.phase
    queuePosition := p.queuePosition.or t.queuePosition
    handle := p.handle.or t.handle
    result := p.result.or t.result
    error := p.error.or t.error
    logTail := p.logTail.or t.logTail }
  match p.state with
  | none => t
  | some s =>
    if s.ended then
      { t with
        state := s
        endedMs := some (t.endedMs.getD nowMs)
        etaSecs := none
        queuePosition := none
        percent := if s = .done then some 100 else t.percent }
    else { t with state := s }

end TaskPatch

/-- What `update` says of a task that is not there. -/
def taskGone : String := "TaskGone"

structure Entry (F J : Type) where
  task : BackgroundTask F J
  /-- Whether the stop of a Rust task is here. -/
  cancel : Bool
  lastProgress : Option ℕ

/-- The map of entries by id, in whatever order the map has them. -/
abbrev Entries (F J : Type) := List (Entry F J)

def Entries.get (entries : Entries F J) (id : String) : Option (Entry F J) :=
  entries.find? (fun e => e.task.id = id)

def Entries.put (entries : Entries F J) (id : String) (entry : Entry F J) : Entries F J :=
  entries.map (fun e => if e.task.id = id then entry else e)

/-! ## Operations -/

def kindWord : TaskKind → String
  | .videoRender => "render"
  | .youtubeUpload => "upload"
  | .image => "image"
  | .music => "music"
  | .video => "video"

/-- The record of a new task. -/
def newTask (kind : TaskKind) (owner label : String) (follower : TaskFollower) (spec : J)
    (uuid : String) (nowMs : ℕ) : BackgroundTask F J :=
  { id := kindWord kind ++ "-" ++ uuid
    kind
    owner
    label
    state := match follower with
      | .rust => .running
      | .frontend => .pending
    follower
    percent := none
    etaSecs := none
    phase := none
    queuePosition := none
    spec
    handle := none
    result := none
    error := none
    logTail := none
    startedMs := nowMs
    endedMs := none
    noticeDelivered := false }

def insertTask (entries : Entries F J) (task : BackgroundTask F J) : Entries F J :=
  entries.filter (fun e => e.task.id ≠ task.id) ++ [⟨task, false, none⟩]

/-- `PROGRESS_EVERY`, in milliseconds. -/
def progressEvery : ℕ := 500

/-- What `update` returns, and whether the task is to be saved and sent out. -/
structure Updated (F J : Type) where
  task : BackgroundTask F J
  save : Bool
  send : Bool

def update [OfNat F 100] (entries : Entries F J) (id : String) (patch : TaskPatch F J)
    (nowMs instant : ℕ) : Except String (Updated F J) × Entries F J :=
  match entries.get id with
  | none => (.error taskGone, entries)
  | some e =>
    if e.task.state.ended && !patch.progressOnly then (.ok ⟨e.task, false, false⟩, entries)
    else
      let task := patch.apply e.task nowMs
      let send := !patch.progressOnly || e.lastProgress.all (fun t => progressEvery ≤ instant - t)
      let entry := ⟨task, e.cancel && !task.state.ended, if send then some instant else e.lastProgress⟩
      (.ok ⟨task, !patch.progressOnly, send⟩, entries.put id entry)

/-- Whether the task was asked to stop; `heard` is whether a Rust task's receiver is still there. -/
def cancel (entries : Entries F J) (id : String) (heard : Bool) : Bool × Entries F J :=
  match entries.get id with
  | none => (false, entries)
  | some e =>
    if e.task.state.ended then (false, entries)
    else
      let asked := match e.task.follower with
        | .rust => e.cancel && heard
        | .frontend => true
      (asked, entries.put id { e with cancel := false })

/-- A notice its owner has not taken. -/
def hasNotice (owner : String) (t : BackgroundTask F J) : Bool :=
  t.owner = owner && t.state.ended && !t.noticeDelivered

def Entry.hear (owner : String) (e : Entry F J) : Entry F J :=
  if hasNotice owner e.task then { e with task := { e.task with noticeDelivered := true } } else e

def takeNotices (entries : Entries F J) (owner : String) : List (BackgroundTask F J) × Entries F J :=
  let taken := (entries.filter (fun e => hasNotice owner e.task)).map (fun e =>
    { e.task with noticeDelivered := true })
  (taken.insertionSort (fun a b => a.endedMs.getD a.startedMs ≤ b.endedMs.getD b.startedMs),
    entries.map (Entry.hear owner))

def removeOwner (entries : Entries F J) (owner : String) : Entries F J :=
  entries.filter (fun e => e.task.owner ≠ owner)

end Haruspex.Tasks
