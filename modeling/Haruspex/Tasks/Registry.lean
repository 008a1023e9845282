import Haruspex.Library.WriteBehind
import Haruspex.Tasks.Entries

/-! Rows of background tasks (`db/tasks.rs`), and the registry a launch makes of them. Progress fields
are memory-only. -/
namespace Haruspex.Tasks
set_option autoImplicit false

variable {F J : Type}

structure Row (J : Type) where
  id : String
  kind : TaskKind
  owner : String
  label : String
  state : TaskState
  follower : TaskFollower
  spec : J
  handle : Option J
  result : Option J
  error : Option String
  logTail : Option String
  startedMs : ℕ
  endedMs : Option ℕ
  noticeDelivered : Bool
  deriving DecidableEq

/-- What `save_task` writes of a task. -/
def rowOf (t : BackgroundTask F J) : Row J :=
  { id := t.id
    kind := t.kind
    owner := t.owner
    label := t.label
    state := t.state
    follower := t.follower
    spec := t.spec
    handle := t.handle
    result := t.result
    error := t.error
    logTail := t.logTail
    startedMs := t.startedMs
    endedMs := t.endedMs
    noticeDelivered := t.noticeDelivered }

/-- What `load_tasks` makes of a row. -/
def loadTask (r : Row J) : BackgroundTask F J :=
  { id := r.id
    kind := r.kind
    owner := r.owner
    label := r.label
    state := r.state
    follower := r.follower
    percent := none
    etaSecs := none
    phase := none
    queuePosition := none
    spec := r.spec
    handle := r.handle
    result := r.result
    error := r.error
    logTail := r.logTail
    startedMs := r.startedMs
    endedMs := r.endedMs
    noticeDelivered := r.noticeDelivered }

@[simp] theorem rowOf_id (t : BackgroundTask F J) : (rowOf t).id = t.id := rfl

@[simp] theorem rowOf_owner (t : BackgroundTask F J) : (rowOf t).owner = t.owner := rfl

@[simp] theorem rowOf_loadTask (r : Row J) : rowOf (loadTask r : BackgroundTask F J) = r := rfl

/-! ## Launch -/

/-- `KEEP_ENDED`, in milliseconds. -/
def keepEnded : ℕ := 30 * 24 * 60 * 60 * 1000

/-- `ENDED_WITH_APP` -/
def endedWithApp : String := "Ended when the app closed."

/-- A task that ended too long ago to be kept. -/
def expired (nowMs : ℕ) (r : Row J) : Bool :=
  r.state.ended && decide (r.endedMs.getD r.startedMs < nowMs - keepEnded)

/-- A task that died with the last run. -/
def died (r : Row J) : Bool := r.follower = .rust && !r.state.ended

/-- A saved task as a launch takes it up. -/
def relaunch (nowMs : ℕ) (r : Row J) : BackgroundTask F J :=
  if died r then
    { (loadTask r : BackgroundTask F J) with
      state := .failed
      error := some endedWithApp
      endedMs := some nowMs
      noticeDelivered := false }
  else loadTask r

/-- `BackgroundTasks::new`, over the rows it loads. -/
def opened (saved : List (Row J)) (nowMs : ℕ) : Entries F J :=
  (saved.filter (fun r => !expired nowMs r)).map (fun r => ⟨relaunch nowMs r, false, none⟩)

theorem relaunch_id (nowMs : ℕ) (r : Row J) : (relaunch nowMs r : BackgroundTask F J).id = r.id := by
  unfold relaunch
  split <;> rfl

theorem mem_opened {saved : List (Row J)} {nowMs : ℕ} {e : Entry F J} :
    e ∈ opened saved nowMs ↔
      ∃ r ∈ saved, expired nowMs r = false ∧ e = ⟨relaunch nowMs r, false, none⟩ := by
  simp only [opened, List.mem_map, List.mem_filter, Bool.not_eq_true', and_assoc]
  exact exists_congr fun r => and_congr_right fun _ => and_congr_right fun _ => eq_comm

end Haruspex.Tasks

/-! The registry over its database. What an operation does to the records it does under the lock; what
it writes it writes after, with no lock held, so that the writes of two operations may come in either
order. -/
namespace Haruspex.Tasks
open WriteBehind
set_option autoImplicit false

variable {F J : Type}

/-- The table of background tasks, by primary key. -/
abbrev Table (J : Type) := String → Option (Row J)

inductive Write (J : Type) where
  /-- `save_task` -/
  | save (row : Row J)
  /-- `delete_tasks_for_owner` -/
  | delete (owner : String)
  deriving DecidableEq

def Write.put (w : Write J) (rows : Table J) : Table J :=
  match w with
  | .save row => fun id => if id = row.id then some row else rows id
  | .delete owner => fun id => (rows id).filter (fun row => row.owner ≠ owner)

/-- The order of two such writes makes a difference. -/
def Write.conflicts : Write J → Write J → Bool
  | .save row, .save row' => row.id = row'.id
  | .save row, .delete owner => row.owner = owner
  | .delete owner, .save row => row.owner = owner
  | .delete _, .delete _ => false

structure State (F J : Type) where
  mem : Entries F J
  rows : Table J
  /-- Every id there has been. -/
  ids : List String
  /-- New tasks whose row is written and that are not in memory yet. -/
  creating : Entries F J
  /-- What each operation still has to write, the oldest operation first. -/
  writing : List (List (Write J))

/-- No operation is under way. -/
def State.Quiet (s : State F J) : Prop := s.creating = [] ∧ due s.writing = []

/-- One step of an operation: all it does under one lock, or one write. -/
inductive Action (F J : Type) where
  | createSave (kind : TaskKind) (owner label : String) (follower : TaskFollower) (spec : J)
      (uuid : String) (nowMs : ℕ)
  | createInsert (id : String)
  | update (id : String) (patch : TaskPatch F J) (nowMs instant : ℕ)
  | cancel (id : String) (heard : Bool)
  | takeNotices (owner : String)
  | removeOwner (owner : String)
  | write (k : ℕ)

def toSave : Except String (Updated F J) → List (List (Write J))
  | .ok updated => if updated.save then [[.save (rowOf updated.task)]] else []
  | .error _ => []

def Action.apply [OfNat F 100] (action : Action F J) (s : State F J) : State F J :=
  match action with
  | .createSave kind owner label follower spec uuid nowMs =>
    let task := newTask kind owner label follower spec uuid nowMs
    { s with
      rows := (Write.save (rowOf task)).put s.rows
      ids := task.id :: s.ids
      creating := insertTask s.creating task }
  | .createInsert id =>
    match s.creating.get id with
    | none => s
    | some e =>
      { s with
        mem := insertTask s.mem e.task
        creating := s.creating.filter (fun e => e.task.id ≠ id) }
  | .update id patch nowMs instant =>
    let updated := Tasks.update s.mem id patch nowMs instant
    { s with mem := updated.2, writing := s.writing ++ toSave updated.1 }
  | .cancel id heard => { s with mem := (Tasks.cancel s.mem id heard).2 }
  | .takeNotices owner =>
    let taken := Tasks.takeNotices s.mem owner
    { s with
      mem := taken.2
      writing := s.writing ++ [taken.1.map (fun t => .save (rowOf t))] }
  | .removeOwner owner =>
    { s with mem := Tasks.removeOwner s.mem owner, writing := s.writing ++ [[.delete owner]] }
  | .write k =>
    match s.writing[k]? with
    | some (w :: rest) => { s with rows := w.put s.rows, writing := s.writing.set k rest }
    | _ => s

/-! ## Launch -/

/-- The rows of a database, each under its primary key. -/
structure Saved (J : Type) where
  rows : List (Row J)
  nodup : (rows.map Row.id).Nodup

def Saved.table (saved : Saved J) : Table J := fun id => saved.rows.find? (fun r => r.id = id)

/-- What a launch does to a row: it goes when it has expired, and is written again when its task has
died. -/
def launchRow (F : Type) (nowMs : ℕ) (rows : Table J) (r : Row J) : Table J :=
  if expired nowMs r then fun id => if id = r.id then none else rows id
  else if died r then (Write.save (rowOf (relaunch nowMs r : BackgroundTask F J))).put rows
  else rows

/-- `BackgroundTasks::new` -/
def launch (saved : Saved J) (nowMs : ℕ) : State F J :=
  { mem := opened saved.rows nowMs
    rows := saved.rows.foldl (launchRow F nowMs) saved.table
    ids := saved.rows.map Row.id
    creating := []
    writing := [] }

/-! ## Order -/

/-- A new task's id is new (`Uuid::new_v4`). -/
def NewId (s : State F J) (action : Action F J) : Prop :=
  match action with
  | .createSave kind _ _ _ _ uuid _ => kindWord kind ++ "-" ++ uuid ∉ s.ids
  | _ => True

/-- A write waits for the writes of older operations it conflicts with, and a new task is not half
made while its owner goes. -/
def InOrder (s : State F J) (action : Action F J) : Prop :=
  match action with
  | .createSave _ owner _ _ _ _ _ => Write.delete owner ∉ due s.writing
  | .removeOwner owner => ∀ e ∈ s.creating, e.task.owner ≠ owner
  | .write k => ∀ w rest, s.writing[k]? = some (w :: rest) →
      ∀ w' ∈ due (s.writing.take k), w.conflicts w' = false
  | _ => True

end Haruspex.Tasks
