import Mathlib.Data.Nat.Notation
import Mathlib.Logic.Function.Basic
import Mathlib.Algebra.GroupWithZero.Nat

/-! The process-wide admission gate for inference turns (`inference_queue.rs`): the state behind
the queue's mutex, `pump`, and the operations as they run under the lock. A method that takes
`&mut self` or the lock returns the new state; a clock reading is an argument.

The oneshot channels a waiter is woken through are part of the state: channel `k` is the `k`-th
one made, `senders` holds the sending half of a waiter's channel, and `oneshots` what each
receiving half has seen. -/
namespace Haruspex.InferenceQueue
set_option autoImplicit false

/-! ## Data -/

/-- Backstop lease window, in milliseconds. -/
def leaseTtlMs : UInt64 := 5 * 60 * 1000

/-- How many early cancellations are remembered. -/
def earlyCancelCap : ℕ := 64

/-- `usize::MAX` on the 64-bit targets: an unbounded lane. -/
def usizeMax : ℕ := 2 ^ 64 - 1

/-- A consumer descriptor is opaque here: its JSON text. -/
abbrev Value := String

inductive TicketState where
  | waiting
  | running
  deriving DecidableEq, Repr

def TicketState.asStr : TicketState → String
  | .waiting => "waiting"
  | .running => "running"

/-- Whether a ticket gives way to the rest of its lane. -/
inductive Priority where
  | foreground
  | background
  deriving DecidableEq, Repr

def Priority.parse : Option String → Priority
  | some "background" => .background
  | _ => .foreground

def Priority.asStr : Priority → String
  | .foreground => "foreground"
  | .background => "background"

/-- How a ticket joins its lane; see `enqueueWith`. -/
structure Admission where
  front : Bool := false
  priority : Priority := .foreground
  replaces : Option String := none
  deriving DecidableEq, Repr

/-- The arguments of `enqueue_with`, and the clock it reads. -/
structure Acquire where
  reqId : String
  consumer : Value
  lane : String
  maxParallel : Option UInt32
  windowLabel : String
  admission : Admission := {}
  now : UInt64
  deriving DecidableEq, Repr

/-- A slot a turn gave back while a long tool ran, held against background tickets. -/
structure Reservation where
  id : String
  lane : String
  ownerWindow : String
  leaseExpiresAt : UInt64
  deriving DecidableEq, Repr

structure Ticket where
  id : String
  consumer : Value
  lane : String
  state : TicketState
  front : Bool
  priority : Priority
  ownerWindow : String
  enqueuedAt : UInt64
  leaseExpiresAt : UInt64
  deriving DecidableEq, Repr

/-- The ticket an acquire puts into the queue. -/
def Acquire.ticket (a : Acquire) : Ticket where
  id := a.reqId
  consumer := a.consumer
  lane := a.lane
  state := .waiting
  front := a.admission.front
  priority := a.admission.priority
  ownerWindow := a.windowLabel
  enqueuedAt := a.now
  leaseExpiresAt := a.now + leaseTtlMs

structure TicketDto where
  id : String
  consumer : Value
  state : String
  priority : String
  enqueuedAt : UInt64
  deriving DecidableEq, Repr

def TicketDto.of (t : Ticket) : TicketDto :=
  ⟨t.id, t.consumer, t.state.asStr, t.priority.asStr, t.enqueuedAt⟩

/-- What the receiving half of a oneshot channel has seen: nothing yet, the value, or a sender
dropped without sending. -/
inductive Oneshot where
  | pending
  | sent
  | closed
  deriving DecidableEq, Repr

structure Inner where
  tickets : List Ticket
  senders : String → Option ℕ
  laneCapacity : String → Option ℕ
  cancelledEarly : List String
  reservations : List Reservation
  oneshots : List Oneshot

/-- `Inner::default()`. -/
def Inner.empty : Inner := ⟨[], fun _ => none, fun _ => none, [], [], []⟩

namespace Inner

/-! ## Channels -/

/-- `oneshot::channel()`: the next channel, with nothing seen on it. -/
def channel (s : Inner) : ℕ × Inner :=
  (s.oneshots.length, { s with oneshots := s.oneshots ++ [.pending] })

/-- Take a sender out of `senders` and leave `seen` on its receiver. -/
def takeSender (s : Inner) (id : String) (seen : Oneshot) : Inner :=
  match s.senders id with
  | none => s
  | some tx =>
    { s with senders := Function.update s.senders id none, oneshots := s.oneshots.set tx seen }

/-- `if let Some(tx) = senders.remove(id) { tx.send(()) }`. -/
def wake (s : Inner) (id : String) : Inner := s.takeSender id .sent

/-- `senders.remove(id)`, the sender dropped unsent. -/
def dropSender (s : Inner) (id : String) : Inner := s.takeSender id .closed

/-- `senders.insert(id, tx)`; a sender that was there is dropped. -/
def insertSender (s : Inner) (id : String) (tx : ℕ) : Inner :=
  { s.dropSender id with senders := Function.update (s.dropSender id).senders id (some tx) }

/-! ## Admission -/

/-- Capacity for a single lane: an unknown lane serializes. -/
def capacity (s : Inner) (lane : String) : ℕ := (s.laneCapacity lane).getD 1

/-- `*counts.entry(lane).or_insert(0) += 1`. -/
def increment (counts : String → ℕ) (lane : String) : String → ℕ :=
  Function.update counts lane (counts lane + 1)

/-- Count currently-running tickets per lane. -/
def runningByLane (s : Inner) : String → ℕ :=
  s.tickets.foldl
    (fun counts t => if t.state = .running then increment counts t.lane else counts) (fun _ => 0)

/-- Whether a background ticket on `lane` must keep waiting. -/
def laneBusyForBackground (s : Inner) (lane : String) : Bool :=
  s.tickets.any (fun t => t.lane = lane ∧ t.priority = .foreground) ||
    s.reservations.any (fun r => r.lane = lane)

/-- One turn of `pump`'s loop: look at index `i`, with the running counts so far. -/
def pumpAt (acc : Inner × (String → ℕ)) (i : ℕ) : Inner × (String → ℕ) :=
  let (s, running) := acc
  match s.tickets[i]? with
  | none => (s, running)
  | some t =>
    if t.state ≠ .waiting then (s, running)
    else if s.capacity t.lane ≤ running t.lane then (s, running)
    else if t.priority = .background ∧ s.laneBusyForBackground t.lane then (s, running)
    else
      ({ s with tickets := s.tickets.set i { t with state := .running } }.wake t.id,
        increment running t.lane)

/-- Admit waiting tickets in vector order while their lane has capacity. -/
def pump (s : Inner) : Inner :=
  ((List.range s.tickets.length).foldl pumpAt (s, s.runningByLane)).1

def snapshot (s : Inner) : List TicketDto := s.tickets.map TicketDto.of

def ticketDto (s : Inner) (reqId : String) : Option TicketDto :=
  (s.tickets.find? (fun t => t.id = reqId)).map TicketDto.of

/-! ## Operations -/

/-- The capacity an acquire supplies: `None` is unbounded, a count is floored at 1. -/
def suppliedCapacity : Option UInt32 → ℕ
  | none => usizeMax
  | some n => max n.toNat 1

/-- `Vec::insert(at, t)`, or `Vec::push(t)` without a position. -/
def insertTicket (tickets : List Ticket) (at? : Option ℕ) (t : Ticket) : List Ticket :=
  match at? with
  | some i => tickets.take i ++ t :: tickets.drop i
  | none => tickets ++ [t]

/-- The state `enqueue_with` has built when it calls `pump`, and the receiver it returns. -/
def enqueued (s : Inner) (a : Acquire) : ℕ × Inner :=
  let s := { s with
    laneCapacity := Function.update s.laneCapacity a.lane (some (suppliedCapacity a.maxParallel)) }
  let s := match a.admission.replaces with
    | some old => { s with reservations := s.reservations.filter (fun r => r.id ≠ old) }
    | none => s
  let (rx, s) := s.channel
  let s := s.insertSender a.reqId rx
  let at? := if a.admission.front then
      s.tickets.findIdx? (fun t => t.lane = a.lane ∧ t.state = .waiting ∧ t.front = false)
    else none
  (rx, { s with tickets := insertTicket s.tickets at? a.ticket })

/-- Register a waiting ticket and return its wakeup receiver. -/
def enqueueWith (s : Inner) (a : Acquire) : Except String ℕ × Inner :=
  if s.tickets.any (fun t => t.id = a.reqId) then
    (.error "duplicate inference request id", s)
  else if a.reqId ∈ s.cancelledEarly then
    (.error "inference request cancelled",
      { s with cancelledEarly := s.cancelledEarly.erase a.reqId })
  else
    let (rx, s) := s.enqueued a
    (.ok rx, s.pump)

/-- Drop the first ticket matching `pred` and its sender, then pump. -/
def removeTicketWhere (s : Inner) (pred : Ticket → Bool) : Bool × Inner :=
  match s.tickets.find? pred with
  | some t => (true, ({ s with tickets := s.tickets.eraseP pred }.dropSender t.id).pump)
  | none => (false, s)

/-- Cancel a still-waiting ticket; a cancel that comes before its acquire is remembered. -/
def cancel (s : Inner) (reqId : String) : Bool × Inner :=
  if s.tickets.any (fun t => t.id = reqId) then
    s.removeTicketWhere (fun t => t.id = reqId ∧ t.state = .waiting)
  else
    let early := s.cancelledEarly ++ [reqId]
    (false, { s with cancelledEarly := early.drop (early.length - earlyCancelCap) })

/-- The state `release_with` has built when it comes to its `pump`, and whether it removed a
ticket. -/
def released (s : Inner) (reqId : String) (reserve : Bool) (now : UInt64) : Bool × Inner :=
  let s := { s with reservations := s.reservations.filter (fun r => r.id ≠ reqId) }
  match s.tickets.find? (fun t => t.id = reqId) with
  | some t =>
    let s := { s with tickets := s.tickets.eraseP (fun t => t.id = reqId) }.dropSender t.id
    (true, if reserve then
        { s with reservations :=
            s.reservations ++ [⟨t.id, t.lane, t.ownerWindow, now + leaseTtlMs⟩] }
      else s)
  | none => (false, s)

/-- Release a slot, with `reserve` leaving a reservation under its id; without it a reservation
under the id ends too. -/
def releaseWith (s : Inner) (reqId : String) (reserve : Bool) (now : UInt64) : Bool × Inner :=
  let hadReservation := s.reservations.any (fun r => r.id = reqId)
  let (removed, s) := s.released reqId reserve now
  (removed || hadReservation, if removed || hadReservation then s.pump else s)

/-- `iter_mut().find(p)`: apply `f` to the first element that matches. -/
def updateFirst {α : Type} (p : α → Bool) (f : α → α) : List α → List α
  | [] => []
  | x :: xs => if p x then f x :: xs else x :: updateFirst p f xs

/-- Refresh a ticket's lease, and a reservation's. -/
def heartbeat (s : Inner) (reqId : String) (now : UInt64) : Inner :=
  { s with
    tickets := updateFirst (fun t => t.id = reqId)
      (fun t => { t with leaseExpiresAt := now + leaseTtlMs }) s.tickets
    reservations := updateFirst (fun r => r.id = reqId)
      (fun r => { r with leaseExpiresAt := now + leaseTtlMs }) s.reservations }

/-- Drop every ticket and reservation matching `pred(owner_window, lease_expires_at)`, then pump
if anything went. -/
def reclaim (s : Inner) (pred : String → UInt64 → Bool) : Bool × Inner :=
  let reservationsBefore := s.reservations.length
  let s := { s with
    reservations := s.reservations.filter (fun r => !pred r.ownerWindow r.leaseExpiresAt) }
  let freedReservation := s.reservations.length != reservationsBefore
  let victims := (s.tickets.filter (fun t => pred t.ownerWindow t.leaseExpiresAt)).map Ticket.id
  if victims.isEmpty then
    (freedReservation, if freedReservation then s.pump else s)
  else
    let s := { s with
      tickets := s.tickets.filter (fun t => !pred t.ownerWindow t.leaseExpiresAt) }
    (true, (victims.foldl dropSender s).pump)

/-- Drop every ticket and reservation owned by a window. -/
def releaseWindow (s : Inner) (label : String) : Bool × Inner :=
  s.reclaim (fun owner _ => owner = label)

/-- Reclaim tickets and reservations whose lease has expired as of `now`. -/
def sweepExpiredAt (s : Inner) (now : UInt64) : Bool × Inner :=
  s.reclaim (fun _ lease => lease < now)

end Inner

/-! ## Runs -/

/-- One call of the queue's interface, with the clock it reads. -/
inductive Op where
  | enqueueWith (a : Acquire)
  | cancel (reqId : String)
  | releaseWith (reqId : String) (reserve : Bool) (now : UInt64)
  | heartbeat (reqId : String) (now : UInt64)
  | releaseWindow (label : String)
  | sweepExpiredAt (now : UInt64)
  deriving DecidableEq, Repr

/-- The state after one call. -/
def Inner.apply (s : Inner) : Op → Inner
  | .enqueueWith a => (s.enqueueWith a).2
  | .cancel reqId => (s.cancel reqId).2
  | .releaseWith reqId reserve now => (s.releaseWith reqId reserve now).2
  | .heartbeat reqId now => s.heartbeat reqId now
  | .releaseWindow label => (s.releaseWindow label).2
  | .sweepExpiredAt now => (s.sweepExpiredAt now).2

/-- The state after a sequence of calls on an initially empty queue. -/
def run (ops : List Op) : Inner := ops.foldl Inner.apply Inner.empty

end Haruspex.InferenceQueue
