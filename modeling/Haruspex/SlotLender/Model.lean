import Haruspex.InferenceQueue.Capacity
import Haruspex.InferenceQueue.Survival
import Mathlib.Data.List.Perm.Basic

/-! Turns on one parallel lane whose tools call the model (`createSlotLender`,
`inferenceQueue.svelte.ts`; `executeToolCalls`, `toolCalls.ts`; `runToolBatch`, `parallelTools.ts`).
A turn keeps its slot while such a batch runs; one call at a time borrows it, and every other call
queues for a slot of its own. -/
namespace Haruspex.SlotLender
open InferenceQueue
set_option autoImplicit false

/-- The lane: its key, and the slots every acquire on it asks for. -/
structure Lane where
  key : String
  maxParallel : UInt32
  parallel : 2 ≤ maxParallel.toNat

namespace Lane

def slots (l : Lane) : ℕ := l.maxParallel.toNat

/-- `MAX_PARALLEL_TOOL_CALLS`. -/
def maxParallelToolCalls : ℕ := 4

/-- `toolCallConcurrency` on this lane. -/
def toolCallConcurrency (l : Lane) : ℕ :=
  if l.slots ≤ 1 then 1 else min maxParallelToolCalls l.slots

/-- An acquire `withInferenceSlot` sends for this lane. -/
def Sends (l : Lane) (a : Acquire) : Prop :=
  a.lane = l.key ∧ a.maxParallel = some l.maxParallel ∧ a.admission.front = false ∧
    a.admission.replaces = none

instance (l : Lane) (a : Acquire) : Decidable (l.Sends a) :=
  inferInstanceAs (Decidable (_ ∧ _ ∧ _ ∧ _))

end Lane

/-! ## Turns -/

/-- One call of a batch: not started, in its own work, in a model call in the turn's slot, waiting
for a slot of its own, in a model call in that slot, or finished. -/
inductive Call where
  | waiting
  | tool
  | borrowing
  | queued (reqId : String)
  | running (reqId : String)
  | done
  deriving DecidableEq

def Call.reqId? : Call → Option String
  | .queued reqId => some reqId
  | .running reqId => some reqId
  | _ => none

/-- Whether a call counts towards the batch's limit. -/
def Call.active : Call → Bool
  | .waiting => false
  | .done => false
  | _ => true

/-- A turn: waiting for its slot, in a model call of its own, running a batch that calls the model
(with the lender's `borrowed`), or returned. -/
inductive Turn where
  | queued (reqId : String)
  | holding (reqId : String)
  | batch (reqId : String) (borrowed : Bool) (calls : List Call)
  | finished
  deriving DecidableEq

/-- The requests a turn and its calls have in the queue. -/
def Turn.reqIds : Turn → List String
  | .queued reqId => [reqId]
  | .holding reqId => [reqId]
  | .batch reqId _ calls => reqId :: calls.filterMap Call.reqId?
  | .finished => []

/-- Whether a request's ticket is in the given state. -/
def ticketIs (queue : Inner) (state : TicketState) (reqId : String) : Bool :=
  queue.tickets.any (fun t => t.id = reqId ∧ t.state = state)

/-- A call waits for a slot that the queue has not given it. -/
def Call.starved (queue : Inner) : Call → Bool
  | .queued reqId => ticketIs queue .waiting reqId
  | _ => false

/-- A turn holds its slot for a batch with a call that waits for another. -/
def Turn.blocked (queue : Inner) : Turn → Bool
  | .batch _ _ calls => calls.any (Call.starved queue)
  | _ => false

/-- A model call of the turn's or a tool of its batch is in progress. -/
def Turn.inProgress : Turn → Bool
  | .holding _ => true
  | .batch _ _ calls => calls.any (fun c => match c with
    | .tool => true
    | .borrowing => true
    | .running _ => true
    | _ => false)
  | _ => false

/-! ## Events -/

structure World where
  queue : Inner
  turns : List Turn
  used : List String

/-- What can happen. The first number is the turn, the second the call of its batch; an acquire is
the one `withInferenceSlot` sends. -/
inductive Event where
  | start (a : Acquire)
  | admitted (i : ℕ)
  | beginBatch (i calls : ℕ)
  | startCall (i j : ℕ)
  | borrow (i j : ℕ)
  | queue (i j : ℕ) (a : Acquire)
  | callAdmitted (i j : ℕ)
  | modelDone (i j : ℕ)
  | toolDone (i j : ℕ)
  | endBatch (i : ℕ)
  | finish (i : ℕ)
  deriving DecidableEq

/-- The events that wait for no model call and no tool. -/
def Event.isTurnStep : Event → Bool
  | .admitted _ => true
  | .startCall _ _ => true
  | .callAdmitted _ _ => true
  | .endBatch _ => true
  | _ => false

namespace World

def setTurn (w : World) (i : ℕ) (turn : Turn) : World := { w with turns := w.turns.set i turn }

/-- `inference_acquire` reaches the queue. -/
def acquire (w : World) (a : Acquire) : World :=
  { w with queue := w.queue.apply (.enqueueWith a), used := a.reqId :: w.used }

/-- `inference_release` reaches the queue. -/
def release (w : World) (reqId : String) (now : UInt64) : World :=
  { w with queue := w.queue.apply (.releaseWith reqId false now) }

/-- One event, if it can happen. A turn on the lane may be of either priority; a call that queues
through the lender is a foreground turn of its own. -/
def step (l : Lane) (w : World) : Event → Option World
  | .start a =>
    if l.Sends a ∧ a.reqId ∉ w.used then
      some { w.acquire a with turns := w.turns ++ [.queued a.reqId] }
    else none
  | .admitted i =>
    match w.turns[i]? with
    | some (.queued reqId) =>
      if ticketIs w.queue .running reqId then some (w.setTurn i (.holding reqId)) else none
    | _ => none
  | .beginBatch i calls =>
    match w.turns[i]? with
    | some (.holding reqId) => some (w.setTurn i (.batch reqId false (List.replicate calls .waiting)))
    | _ => none
  | .startCall i j =>
    match w.turns[i]? with
    | some (.batch reqId borrowed calls) =>
      if calls[j]? = some .waiting ∧ calls.countP Call.active < l.toolCallConcurrency then
        some (w.setTurn i (.batch reqId borrowed (calls.set j .tool)))
      else none
    | _ => none
  | .borrow i j =>
    match w.turns[i]? with
    | some (.batch reqId borrowed calls) =>
      if calls[j]? = some .tool ∧ borrowed = false then
        some (w.setTurn i (.batch reqId true (calls.set j .borrowing)))
      else none
    | _ => none
  | .queue i j a =>
    match w.turns[i]? with
    | some (.batch reqId borrowed calls) =>
      if calls[j]? = some .tool ∧ borrowed = true ∧ l.Sends a ∧
          a.admission.priority = .foreground ∧ a.reqId ∉ w.used then
        some ((w.acquire a).setTurn i (.batch reqId borrowed (calls.set j (.queued a.reqId))))
      else none
    | _ => none
  | .callAdmitted i j =>
    match w.turns[i]? with
    | some (.batch reqId borrowed calls) =>
      match calls[j]? with
      | some (.queued own) =>
        if ticketIs w.queue .running own then
          some (w.setTurn i (.batch reqId borrowed (calls.set j (.running own))))
        else none
      | _ => none
    | _ => none
  | .modelDone i j =>
    match w.turns[i]? with
    | some (.batch reqId borrowed calls) =>
      match calls[j]? with
      | some .borrowing => some (w.setTurn i (.batch reqId false (calls.set j .tool)))
      | some (.running own) =>
        some ((w.release own 0).setTurn i (.batch reqId borrowed (calls.set j .tool)))
      | _ => none
    | _ => none
  | .toolDone i j =>
    match w.turns[i]? with
    | some (.batch reqId borrowed calls) =>
      if calls[j]? = some .tool then
        some (w.setTurn i (.batch reqId borrowed (calls.set j .done)))
      else none
    | _ => none
  | .endBatch i =>
    match w.turns[i]? with
    | some (.batch reqId _ calls) =>
      if calls.all (fun c => c = .done) then some (w.setTurn i (.holding reqId)) else none
    | _ => none
  | .finish i =>
    match w.turns[i]? with
    | some (.holding reqId) => some ((w.release reqId 0).setTurn i .finished)
    | _ => none

def start : World := ⟨Inner.empty, [], []⟩

def run (l : Lane) (w : World) (events : List Event) : Option World := events.foldlM (step l) w

/-- Some turn has not returned, and no model call and no tool is in progress. -/
def AtRest (w : World) : Prop :=
  (∃ turn ∈ w.turns, turn ≠ .finished) ∧ ∀ turn ∈ w.turns, turn.inProgress = false

instance (w : World) : Decidable w.AtRest :=
  inferInstanceAs (Decidable (_ ∧ _))

/-- Every running ticket is that of a turn one of whose calls waits for a slot. -/
def Deadlocked (w : World) : Prop :=
  (∃ t ∈ w.queue.tickets, t.state = .running) ∧ ∀ t ∈ w.queue.tickets, t.state = .running →
    ∃ turn ∈ w.turns, turn.blocked w.queue = true ∧ turn.reqIds.head? = some t.id

instance (w : World) : Decidable w.Deadlocked :=
  inferInstanceAs (Decidable (_ ∧ _))

/-- The condition on an event: a call queues for a slot of its own only while fewer than the lane's
slots less one are held by other turns with a call that waits. -/
def Spares (l : Lane) (w : World) : Event → Prop
  | .queue i _ _ => (w.turns.eraseIdx i).countP (Turn.blocked w.queue) + 1 < l.slots
  | _ => True

instance (l : Lane) (w : World) : (e : Event) → Decidable (w.Spares l e)
  | .queue i _ _ =>
    inferInstanceAs (Decidable ((w.turns.eraseIdx i).countP (Turn.blocked w.queue) + 1 < l.slots))
  | .start _ => .isTrue trivial
  | .admitted _ => .isTrue trivial
  | .beginBatch _ _ => .isTrue trivial
  | .startCall _ _ => .isTrue trivial
  | .borrow _ _ => .isTrue trivial
  | .callAdmitted _ _ => .isTrue trivial
  | .modelDone _ _ => .isTrue trivial
  | .toolDone _ _ => .isTrue trivial
  | .endBatch _ => .isTrue trivial
  | .finish _ => .isTrue trivial

end World

end Haruspex.SlotLender
