import Haruspex.InferenceQueue.Receivers
import Haruspex.InferenceQueue.Survival

/-! One turn as the client runs it (`withInferenceSlot` and `heldSlot`, `inferenceQueue.svelte.ts`),
with the queue at the other end of its `invoke` calls. Each call is a message that is sent when the
program sends it and processed at any later time, in any order; everything else that happens to the
queue meanwhile is `other`. -/
namespace Haruspex.InferenceSlot
open InferenceQueue
set_option autoImplicit false

/-! ## Messages -/

/-- An `invoke` call on its way to the queue. -/
inductive Message where
  | acquire (a : Acquire)
  | release (reqId : String) (reserve : Bool)
  | cancel (reqId : String)
  | heartbeat (reqId : String)
  deriving DecidableEq

namespace Message

/-- The queue call a message makes when it is processed at `now`. -/
def op (now : UInt64) : Message → Op
  | .acquire a => .enqueueWith { a with now := now }
  | .release reqId reserve => .releaseWith reqId reserve now
  | .cancel reqId => .cancel reqId
  | .heartbeat reqId => .heartbeat reqId now

def reqId : Message → String
  | .acquire a => a.reqId
  | .release reqId _ => reqId
  | .cancel reqId => reqId
  | .heartbeat reqId => reqId

def isAcquire : Message → Bool
  | .acquire _ => true
  | _ => false

end Message

/-- The request ids a call names. -/
def opNames : Op → List String
  | .enqueueWith a => a.reqId :: a.admission.replaces.toList
  | .cancel reqId => [reqId]
  | .releaseWith reqId _ _ => [reqId]
  | .heartbeat reqId _ => [reqId]
  | .releaseWindow _ => []
  | .sweepExpiredAt _ => []

/-! ## The turn -/

/-- What stays fixed over a turn. -/
structure WithSlotOptions where
  consumer : Value
  windowLabel : String
  priority : Priority := .foreground

/-- Where `withInferenceSlot` is: awaiting its first acquire, in `fn`, or returned. -/
inductive Phase where
  | entering
  | running
  | finished
  deriving DecidableEq

/-- The `inference_acquire` call the turn awaits, if any: not processed yet, waiting on its
receiver, or refused. -/
inductive Acquiring where
  | none
  | sent
  | waiting (rx : ℕ)
  | refused
  deriving DecidableEq

/-- The queue, the turn (`TurnRequest`), its messages under way and the request ids it has used. -/
structure World where
  queue : Inner
  reqId : String
  held : Bool
  phase : Phase
  aborted : Bool
  acquiring : Acquiring
  inFlight : List Message
  used : List String

/-- What can happen. `reacquire` says which id, lane and lane capacity the take-back gets. -/
inductive Event where
  | deliver (m : Message) (now : UInt64)
  | other (op : Op)
  | answered
  | abort
  | release
  | reacquire (reqId lane : String) (maxParallel : Option UInt32)
  | finish
  | heartbeat
  deriving DecidableEq

namespace World

def send (w : World) (m : Message) : World := { w with inFlight := w.inFlight ++ [m] }

/-- The `finally` block of `withInferenceSlot`. -/
def conclude (w : World) : World :=
  { w with phase := .finished, held := false }.send (.release w.reqId false)

/-- A turn that has just sent its first acquire. -/
def start (options : WithSlotOptions) (queue : Inner) (reqId lane : String)
    (maxParallel : Option UInt32) : World where
  queue := queue
  reqId := reqId
  held := false
  phase := .entering
  aborted := false
  acquiring := .sent
  inFlight := [.acquire
    ⟨reqId, options.consumer, lane, maxParallel, options.windowLabel,
      ⟨false, options.priority, none⟩, 0⟩]
  used := [reqId]

/-- How `inference_acquire` stands once the queue has seen it. -/
def acquireState (queue : Inner) (a : Acquire) : Acquiring :=
  match (queue.enqueueWith a).1 with
  | .ok rx => .waiting rx
  | .error _ => .refused

/-- The queue processes a message. -/
def deliver (w : World) (m : Message) (now : UInt64) : World :=
  { w with
    queue := w.queue.apply (m.op now)
    inFlight := w.inFlight.erase m
    acquiring := match m with
      | .acquire a => acquireState w.queue { a with now := now }
      | _ => w.acquiring }

/-- The answer the awaited acquire has for the client, once it has one. -/
def response (w : World) : Option Bool :=
  match w.acquiring with
  | .none => none
  | .sent => none
  | .refused => some false
  | .waiting rx =>
    match w.queue.oneshots[rx]? with
    | some .sent => some (w.queue.ticketDto w.reqId).isSome
    | some .closed => some false
    | _ => none

/-- The client goes on after its acquire: `withInferenceSlot` into `fn` or out, `takeBack` with the
slot or without. -/
def answered (w : World) (ok : Bool) : World :=
  let w := { w with acquiring := .none }
  match w.phase with
  | .entering =>
    if ok && !w.aborted then { w with held := true, phase := .running } else w.conclude
  | .running => { w with held := ok && !w.aborted }
  | .finished => w

/-- `HeldSlot.release`. -/
def release (w : World) : World :=
  if w.held = false ∨ w.phase = .finished then w
  else { w with held := false }.send (.release w.reqId true)

/-- `takeBack`, up to the acquire it awaits. -/
def takeBack (options : WithSlotOptions) (w : World) (reqId lane : String)
    (maxParallel : Option UInt32) : World :=
  { w with reqId := reqId, acquiring := .sent, used := reqId :: w.used }.send
    (.acquire ⟨reqId, options.consumer, lane, maxParallel, options.windowLabel,
      ⟨true, options.priority, some w.reqId⟩, 0⟩)

/-- One event, if it can happen. `mine` are the ids `nextReqId` keeps for this turn: no other call
names them, and the turn uses each once. -/
def step (options : WithSlotOptions) (mine : String → Bool) (w : World) : Event → Option World
  | .deliver m now => if m ∈ w.inFlight then some (w.deliver m now) else none
  | .other op =>
    if (opNames op).any mine then none else some { w with queue := w.queue.apply op }
  | .answered => w.response.map w.answered
  | .abort =>
    if w.aborted ∨ w.phase = .finished then none
    else some ({ w with aborted := true }.send (.cancel w.reqId))
  | .release => if w.phase = .entering then none else some w.release
  | .reacquire reqId lane maxParallel =>
    if w.phase = .entering then none
    else if w.held ∨ w.phase = .finished ∨ w.aborted ∨ w.acquiring ≠ .none then some w
    else if mine reqId ∧ reqId ∉ w.used then some (w.takeBack options reqId lane maxParallel)
    else none
  | .finish => if w.phase = .running then some w.conclude else none
  | .heartbeat => if w.phase = .finished then none else some (w.send (.heartbeat w.reqId))

/-- The world after a sequence of events, if they can happen in this order. -/
def run (options : WithSlotOptions) (mine : String → Bool) (w : World) (events : List Event) :
    Option World :=
  events.foldlM (step options mine) w

/-- The turn has returned and every message it sent has been processed. -/
def Settled (w : World) : Prop := w.phase = .finished ∧ w.inFlight = []

/-- Nothing in the queue is of this turn. -/
def Gone (mine : String → Bool) (w : World) : Prop :=
  (∀ t ∈ w.queue.tickets, mine t.id = false) ∧ ∀ r ∈ w.queue.reservations, mine r.id = false

end World

end Haruspex.InferenceSlot
