import Haruspex.InferenceQueue.Model
import Haruspex.Library.AdmissionScan

/-! What `pump` does. Its loop by index is the one-pass admission scan of `Haruspex.AdmissionScan`
over the ticket vector, with the lane as the class and the lane's capacity as the room; the
tickets it starts are then woken. -/
namespace Haruspex.InferenceQueue
open AdmissionScan
set_option autoImplicit false

namespace Inner

/-! ## Senders -/

/-- Take the senders of `ids` out one after another, leaving `seen` on their receivers. -/
def takeSenders (s : Inner) (ids : List String) (seen : Oneshot) : Inner :=
  ids.foldl (fun s id => s.takeSender id seen) s

@[simp] theorem takeSender_tickets (s : Inner) (id : String) (seen : Oneshot) :
    (s.takeSender id seen).tickets = s.tickets := by
  unfold takeSender
  split <;> rfl

@[simp] theorem takeSender_laneCapacity (s : Inner) (id : String) (seen : Oneshot) :
    (s.takeSender id seen).laneCapacity = s.laneCapacity := by
  unfold takeSender
  split <;> rfl

@[simp] theorem takeSender_cancelledEarly (s : Inner) (id : String) (seen : Oneshot) :
    (s.takeSender id seen).cancelledEarly = s.cancelledEarly := by
  unfold takeSender
  split <;> rfl

@[simp] theorem takeSender_reservations (s : Inner) (id : String) (seen : Oneshot) :
    (s.takeSender id seen).reservations = s.reservations := by
  unfold takeSender
  split <;> rfl

theorem takeSender_senders (s : Inner) (id : String) (seen : Oneshot) :
    (s.takeSender id seen).senders = Function.update s.senders id none := by
  unfold takeSender
  split
  · rename_i h
    rw [← h, Function.update_eq_self]
  · rfl

@[simp] theorem takeSender_length (s : Inner) (id : String) (seen : Oneshot) :
    (s.takeSender id seen).oneshots.length = s.oneshots.length := by
  unfold takeSender
  split <;> simp

@[simp] theorem takeSenders_nil (s : Inner) (seen : Oneshot) : s.takeSenders [] seen = s := rfl

theorem takeSenders_append (s : Inner) (ids ids' : List String) (seen : Oneshot) :
    s.takeSenders (ids ++ ids') seen = (s.takeSenders ids seen).takeSenders ids' seen :=
  List.foldl_append

@[simp] theorem takeSenders_tickets (s : Inner) (ids : List String) (seen : Oneshot) :
    (s.takeSenders ids seen).tickets = s.tickets := by
  induction ids generalizing s with
  | nil => rfl
  | cons id ids ih => exact (ih _).trans (takeSender_tickets s id seen)

@[simp] theorem takeSenders_laneCapacity (s : Inner) (ids : List String) (seen : Oneshot) :
    (s.takeSenders ids seen).laneCapacity = s.laneCapacity := by
  induction ids generalizing s with
  | nil => rfl
  | cons id ids ih => exact (ih _).trans (takeSender_laneCapacity s id seen)

@[simp] theorem takeSenders_cancelledEarly (s : Inner) (ids : List String) (seen : Oneshot) :
    (s.takeSenders ids seen).cancelledEarly = s.cancelledEarly := by
  induction ids generalizing s with
  | nil => rfl
  | cons id ids ih => exact (ih _).trans (takeSender_cancelledEarly s id seen)

@[simp] theorem takeSenders_reservations (s : Inner) (ids : List String) (seen : Oneshot) :
    (s.takeSenders ids seen).reservations = s.reservations := by
  induction ids generalizing s with
  | nil => rfl
  | cons id ids ih => exact (ih _).trans (takeSender_reservations s id seen)

theorem takeSenders_senders (s : Inner) (ids : List String) (seen : Oneshot) (id : String) :
    (s.takeSenders ids seen).senders id = if id ∈ ids then none else s.senders id := by
  induction ids generalizing s with
  | nil => rfl
  | cons first ids ih =>
    refine (ih _).trans ?_
    rw [takeSender_senders]
    by_cases h : id ∈ ids
    · simp [h]
    · by_cases e : id = first
      · simp [e]
      · simp [h, e]

@[simp] theorem takeSenders_length (s : Inner) (ids : List String) (seen : Oneshot) :
    (s.takeSenders ids seen).oneshots.length = s.oneshots.length := by
  induction ids generalizing s with
  | nil => rfl
  | cons id ids ih => exact (ih _).trans (takeSender_length s id seen)

/-- Taking senders out does not touch the rest of the state. -/
theorem takeSenders_with_tickets (s : Inner) (ids : List String) (seen : Oneshot)
    (ts : List Ticket) : { s with tickets := ts }.takeSenders ids seen =
      { s.takeSenders ids seen with tickets := ts } := by
  induction ids generalizing s with
  | nil => rfl
  | cons id ids ih =>
    have h : { s with tickets := ts }.takeSender id seen =
        { s.takeSender id seen with tickets := ts } := by
      unfold takeSender
      dsimp only
      split <;> rfl
    refine Eq.trans ?_ (ih (s.takeSender id seen))
    exact congrArg (fun u => takeSenders u ids seen) h

end Inner

/-! ## The scan -/

/-- The ticket once admitted. -/
def Ticket.start (t : Ticket) : Ticket := { t with state := .running }

namespace Inner

/-- The scan `pump` makes of its tickets: a background ticket is held while its lane is busy. -/
def gate (s : Inner) : Gate Ticket String where
  key := Ticket.lane
  running := fun t => t.state = .running
  start := Ticket.start
  cap := s.capacity
  held := fun t => t.priority = .background ∧ s.laneBusyForBackground t.lane
  key_start := fun _ => rfl
  running_start := fun _ => rfl

/-- The tickets running on `lane`. -/
def runningOn (s : Inner) (lane : String) : ℕ :=
  s.tickets.countP (fun t => t.lane = lane ∧ t.state = .running)

theorem gate_count (s : Inner) (lane : String) : s.gate.count s.tickets lane = s.runningOn lane := by
  simp [gate, Gate.count, runningOn]

theorem runningByLane_eq (s : Inner) : s.runningByLane = s.runningOn := by
  have hfold : ∀ (ts : List Ticket) (counts : String → ℕ) (lane : String),
      ts.foldl (fun counts t => if t.state = .running then increment counts t.lane else counts)
        counts lane = counts lane + ts.countP (fun t => t.lane = lane ∧ t.state = .running) := by
    intro ts
    induction ts with
    | nil => simp
    | cons t ts ih =>
      intro counts lane
      rw [List.foldl_cons, ih, List.countP_cons]
      by_cases ht : t.state = .running
      · by_cases hl : t.lane = lane
        · subst hl
          simp [ht, increment]
          omega
        · simp [ht, hl, increment, Function.update_of_ne (Ne.symm hl)]
      · simp [ht]
  funext lane
  exact (hfold s.tickets (fun _ => 0) lane).trans (Nat.zero_add _)

/-- The tickets `pump` starts, as they were before. -/
def pumped (s : Inner) : List Ticket := s.gate.started s.runningByLane s.tickets

/-- Whether a lane is busy for background tickets does not depend on which of its tickets run. -/
theorem any_foreground_outcome (s : Inner) (lane : String) {ts ts' : List Ticket}
    (h : List.Forall₂ s.gate.Outcome ts ts') :
    ts'.any (fun t => t.lane = lane ∧ t.priority = .foreground) =
      ts.any (fun t => t.lane = lane ∧ t.priority = .foreground) := by
  induction h with
  | nil => rfl
  | cons hab _ ih =>
    rw [List.any_cons, List.any_cons, ih]
    rcases hab with rfl | ⟨-, -, rfl⟩ <;> rfl

theorem outcome_refl (s : Inner) (ts : List Ticket) : List.Forall₂ s.gate.Outcome ts ts :=
  List.forall₂_same.mpr (fun _ _ => Or.inl rfl)

/-- One turn of the loop, as the scan's test on the ticket at its index. -/
theorem pumpAt_eq (s : Inner) (running : String → ℕ) (i : ℕ) (t : Ticket)
    (ht : s.tickets[i]? = some t) : pumpAt (s, running) i =
      if s.gate.admits running t then
        ({ s with tickets := s.tickets.set i t.start }.takeSender t.id .sent,
          Gate.bump running t.lane)
      else (s, running) := by
  have hadm := s.gate.admits_iff running t
  simp only [gate, decide_eq_false_iff_not] at hadm
  rw [pumpAt, ht]
  dsimp only
  split <;> rename_i h1
  · rw [if_neg]
    intro h
    exact absurd (hadm.mp h).1 (by cases hs : t.state <;> simp_all)
  · split <;> rename_i h2
    · rw [if_neg]
      intro h
      exact absurd (hadm.mp h).2.1 (by omega)
    · split <;> rename_i h3
      · rw [if_neg]
        intro h
        exact absurd (hadm.mp h).2.2 (by simpa using h3)
      · rw [if_pos]
        · rfl
        · refine hadm.mpr ⟨?_, by omega, by simpa using h3⟩
          rw [not_not.mp h1]
          decide

/-- The test depends on the lanes' capacities and on which lanes are busy. -/
theorem gate_admits_congr {s u : Inner} (hcap : u.laneCapacity = s.laneCapacity)
    (hbusy : u.laneBusyForBackground = s.laneBusyForBackground) : u.gate.admits = s.gate.admits := by
  funext running t
  simp only [Gate.admits, gate, capacity, hcap, hbusy]
  rfl

/-- The state of `pump`'s loop, with the ticket vector and the receivers woken so far. -/
def loopState (s : Inner) (ts : List Ticket) (woken : List String) : Inner :=
  { s with tickets := ts }.takeSenders woken .sent

@[simp] theorem loopState_tickets (s : Inner) (ts : List Ticket) (woken : List String) :
    (s.loopState ts woken).tickets = ts := takeSenders_tickets _ _ _

@[simp] theorem loopState_laneCapacity (s : Inner) (ts : List Ticket) (woken : List String) :
    (s.loopState ts woken).laneCapacity = s.laneCapacity := takeSenders_laneCapacity _ _ _

theorem loopState_busy (s : Inner) (ts : List Ticket) (woken : List String)
    (h : List.Forall₂ s.gate.Outcome s.tickets ts) :
    (s.loopState ts woken).laneBusyForBackground = s.laneBusyForBackground := by
  funext lane
  rw [laneBusyForBackground, laneBusyForBackground, loopState_tickets,
    s.any_foreground_outcome lane h, loopState, takeSenders_reservations]

theorem loopState_wake (s : Inner) (ts ts' : List Ticket) (woken : List String) (id : String) :
    { s.loopState ts woken with tickets := ts' }.takeSender id .sent =
      s.loopState ts' (woken ++ [id]) := by
  rw [loopState, loopState, takeSenders_append, takeSenders_with_tickets s woken .sent ts,
    takeSenders_with_tickets s woken .sent ts']
  rfl

/-- The state of `pump`'s loop after the first `k` indices. -/
theorem pump_loop (s : Inner) (k : ℕ) (hk : k ≤ s.tickets.length) :
    (List.range k).foldl pumpAt (s, s.runningByLane) =
      (s.loopState (s.gate.scan s.runningByLane (s.tickets.take k) ++ s.tickets.drop k)
          ((s.gate.started s.runningByLane (s.tickets.take k)).map Ticket.id),
        s.gate.tally s.runningByLane (s.tickets.take k)) := by
  induction k with
  | zero => rfl
  | succ k ih =>
    have hlt : k < s.tickets.length := hk
    obtain ⟨t, ht⟩ : ∃ t, s.tickets[k]? = some t := ⟨_, List.getElem?_eq_getElem hlt⟩
    have hdrop : s.tickets.drop k = t :: s.tickets.drop (k + 1) := by
      rw [List.drop_eq_getElem_cons hlt, (List.getElem?_eq_some_iff.mp ht).2]
    have htake : s.tickets.take (k + 1) = s.tickets.take k ++ [t] := by
      rw [List.take_add_one, ht]
      rfl
    have hout : List.Forall₂ s.gate.Outcome (s.tickets.take k ++ s.tickets.drop k)
        (s.gate.scan s.runningByLane (s.tickets.take k) ++ s.tickets.drop k) :=
      List.rel_append (s.gate.scan_outcome _ _) (s.outcome_refl _)
    rw [List.take_append_drop] at hout
    have hlen : (s.gate.scan s.runningByLane (s.tickets.take k)).length = k := by
      rw [Gate.scan_length, List.length_take, Nat.min_eq_left hlt.le]
    rw [List.range_succ, List.foldl_append, ih hlt.le, htake, Gate.scan_append, Gate.started_append,
      Gate.tally_append, List.foldl_cons, List.foldl_nil]
    generalize s.gate.tally s.runningByLane (s.tickets.take k) = running
    generalize (s.gate.started s.runningByLane (s.tickets.take k)) = woken
    generalize s.gate.scan s.runningByLane (s.tickets.take k) = before at hout hlen ⊢
    subst hlen
    have hat : (s.loopState (before ++ s.tickets.drop before.length)
        (woken.map Ticket.id)).tickets[before.length]? = some t := by
      simp [hdrop]
    rw [pumpAt_eq _ running before.length t hat,
      gate_admits_congr (s.loopState_laneCapacity _ _) (s.loopState_busy _ _ hout)]
    rw [loopState_wake, loopState_tickets, hdrop]
    by_cases hadm : s.gate.admits running t = true
    · simp [hadm, Gate.scan, Gate.started, Gate.tally]
      exact ⟨rfl, rfl⟩
    · simp [hadm, Gate.scan, Gate.started, Gate.tally]

/-- **`pump` is the scan**, followed by the wake-ups of the tickets it starts. -/
theorem pump_eq (s : Inner) : s.pump =
    s.loopState (s.gate.scan s.runningByLane s.tickets) (s.pumped.map Ticket.id) := by
  rw [pump, s.pump_loop s.tickets.length (Nat.le_refl _), List.take_length, List.drop_length,
    List.append_nil]
  rfl

theorem pump_tickets (s : Inner) :
    s.pump.tickets = s.gate.scan s.runningByLane s.tickets := by
  rw [pump_eq, loopState_tickets]

@[simp] theorem pump_laneCapacity (s : Inner) : s.pump.laneCapacity = s.laneCapacity := by
  rw [pump_eq, loopState, takeSenders_laneCapacity]

@[simp] theorem pump_cancelledEarly (s : Inner) : s.pump.cancelledEarly = s.cancelledEarly := by
  rw [pump_eq, loopState, takeSenders_cancelledEarly]

@[simp] theorem pump_reservations (s : Inner) : s.pump.reservations = s.reservations := by
  rw [pump_eq, loopState, takeSenders_reservations]

theorem pump_senders (s : Inner) (id : String) : s.pump.senders id =
    if id ∈ s.pumped.map Ticket.id then none else s.senders id := by
  rw [pump_eq, loopState, takeSenders_senders]

end Inner

end Haruspex.InferenceQueue

/-! Work conservation: nothing waits without a reason. `pump` leaves no ticket that could start,
whatever state it is called in, and a call that does not pump changes nothing a waiting ticket
depends on. -/
namespace Haruspex.InferenceQueue
open AdmissionScan
set_option autoImplicit false

namespace Inner

/-- Why a waiting ticket waits: its lane is full, or it is in the background and its lane has
foreground work or a reservation. -/
def ReasonToWait (s : Inner) (t : Ticket) : Prop :=
  s.capacity t.lane ≤ s.runningOn t.lane ∨
    (t.priority = .background ∧
      ((∃ u ∈ s.tickets, u.lane = t.lane ∧ u.priority = .foreground) ∨
        ∃ r ∈ s.reservations, r.lane = t.lane))

/-- Every waiting ticket has a reason to wait. -/
def Conserved (s : Inner) : Prop :=
  ∀ t ∈ s.tickets, t.state = .waiting → s.ReasonToWait t

theorem laneBusyForBackground_iff (s : Inner) (lane : String) :
    s.laneBusyForBackground lane = true ↔
      (∃ u ∈ s.tickets, u.lane = lane ∧ u.priority = .foreground) ∨
        ∃ r ∈ s.reservations, r.lane = lane := by
  simp [laneBusyForBackground]

/-! ## After a pump -/

theorem pump_outcome (s : Inner) : List.Forall₂ s.gate.Outcome s.tickets s.pump.tickets := by
  rw [pump_tickets]
  exact s.gate.scan_outcome _ _

@[simp] theorem pump_capacity (s : Inner) : s.pump.capacity = s.capacity := by
  funext lane
  rw [capacity, capacity, pump_laneCapacity]

@[simp] theorem pump_laneBusyForBackground (s : Inner) :
    s.pump.laneBusyForBackground = s.laneBusyForBackground := by
  funext lane
  rw [laneBusyForBackground, laneBusyForBackground, s.any_foreground_outcome lane s.pump_outcome,
    pump_reservations]

theorem pump_runningOn (s : Inner) (lane : String) :
    s.pump.runningOn lane = s.gate.tally s.runningByLane s.tickets lane := by
  have h := s.gate.tally_eq s.runningByLane (fun _ => 0) s.tickets
    (fun k => by rw [gate_count, runningByLane_eq, Nat.zero_add]) lane
  rw [h, ← pump_tickets, Nat.zero_add]
  exact (gate_count s.pump lane).symm

theorem pump_conserved (s : Inner) : s.pump.Conserved := by
  intro t ht hwait
  rw [pump_tickets] at ht
  rcases s.gate.blocked_of_idle _ _ ht (by simp [gate, hwait]) with hfull | hheld
  · left
    rw [pump_capacity, pump_runningOn]
    exact hfull
  · right
    have h : t.priority = .background ∧ s.laneBusyForBackground t.lane = true := by
      simpa [gate] using hheld
    exact ⟨h.1, (s.pump.laneBusyForBackground_iff t.lane).mp (by simpa using h.2)⟩

/-- A waiting ticket with a reason to wait fails `pump`'s test. -/
theorem ReasonToWait.not_admits {s : Inner} {t : Ticket} (h : s.ReasonToWait t) :
    s.gate.admits s.runningByLane t = false := by
  rw [Bool.eq_false_iff]
  intro hadm
  obtain ⟨-, hroom, hheld⟩ := (s.gate.admits_iff _ _).mp hadm
  rw [runningByLane_eq] at hroom
  rcases h with hfull | ⟨hback, hbusy⟩
  · exact absurd hroom (Nat.not_lt.mpr hfull)
  · have : s.laneBusyForBackground t.lane = true := (s.laneBusyForBackground_iff _).mpr hbusy
    simp [gate, hback, this] at hheld

/-- A conserved state is a fixed point of `pump`. -/
theorem Conserved.pump_eq_self {s : Inner} (h : s.Conserved) : s.pump = s := by
  have hno : ∀ t ∈ s.tickets, s.gate.admits s.runningByLane t = false := by
    intro t ht
    cases hs : t.state with
    | waiting => exact (h t ht hs).not_admits
    | running => simp [Gate.admits, gate, hs]
  rw [pump_eq, pumped, s.gate.scan_eq_self _ _ hno, s.gate.started_eq_nil _ _ hno]
  rfl

/-- One pass of `pump` is already a fixed point. -/
theorem pump_pump (s : Inner) : s.pump.pump = s.pump := s.pump_conserved.pump_eq_self

end Inner

end Haruspex.InferenceQueue
