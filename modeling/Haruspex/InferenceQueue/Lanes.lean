import Haruspex.InferenceQueue.Receivers
import Haruspex.InferenceQueue.Survival
import Haruspex.InferenceQueue.Capacity

/-! Lane independence. A call about another lane leaves a lane's part of the queue as it was, although
`pump` looks at every ticket; and a run, seen from one lane, is the run of the calls that touch the
lane, as long as no early cancellation is pushed out of those remembered. -/
namespace Haruspex.InferenceQueue
open AdmissionScan
set_option autoImplicit false

/-- The part of the queue that belongs to one lane. -/
structure LaneView where
  tickets : List Ticket
  hasSender : List Bool
  capacity : ℕ
  reservations : List Reservation
  deriving DecidableEq

namespace Inner

def laneTickets (s : Inner) (lane : String) : List Ticket :=
  s.tickets.filter (fun t => t.lane = lane)

def laneReservations (s : Inner) (lane : String) : List Reservation :=
  s.reservations.filter (fun r => r.lane = lane)

def onLane (s : Inner) (lane : String) : LaneView where
  tickets := s.laneTickets lane
  hasSender := (s.laneTickets lane).map (fun t => (s.senders t.id).isSome)
  capacity := s.capacity lane
  reservations := s.laneReservations lane

/-- Two states with the same tickets, capacity and reservations on a lane. -/
structure SameLane (lane : String) (s u : Inner) : Prop where
  tickets : u.laneTickets lane = s.laneTickets lane
  capacity : u.capacity lane = s.capacity lane
  reservations : u.laneReservations lane = s.laneReservations lane

theorem mem_laneTickets (s : Inner) (lane : String) (t : Ticket) :
    t ∈ s.laneTickets lane ↔ t ∈ s.tickets ∧ t.lane = lane := by
  rw [laneTickets, List.mem_filter, decide_eq_true_eq]

theorem mem_laneReservations (s : Inner) (lane : String) (r : Reservation) :
    r ∈ s.laneReservations lane ↔ r ∈ s.reservations ∧ r.lane = lane := by
  rw [laneReservations, List.mem_filter, decide_eq_true_eq]

namespace SameLane

variable {lane : String} {s u v : Inner}

theorem refl (lane : String) (s : Inner) : SameLane lane s s := ⟨rfl, rfl, rfl⟩

theorem symm (h : SameLane lane s u) : SameLane lane u s :=
  ⟨h.tickets.symm, h.capacity.symm, h.reservations.symm⟩

theorem trans (h : SameLane lane s u) (h' : SameLane lane u v) : SameLane lane s v :=
  ⟨h'.tickets.trans h.tickets, h'.capacity.trans h.capacity, h'.reservations.trans h.reservations⟩

theorem mem (h : SameLane lane s u) {t : Ticket} (ht : t ∈ s.tickets) (hlane : t.lane = lane) :
    t ∈ u.tickets := by
  have hmem := (s.mem_laneTickets lane t).mpr ⟨ht, hlane⟩
  rw [← h.tickets] at hmem
  exact ((u.mem_laneTickets lane t).mp hmem).1

theorem mem_reservations (h : SameLane lane s u) {r : Reservation} (hr : r ∈ s.reservations)
    (hlane : r.lane = lane) : r ∈ u.reservations := by
  have hmem := (s.mem_laneReservations lane r).mpr ⟨hr, hlane⟩
  rw [← h.reservations] at hmem
  exact ((u.mem_laneReservations lane r).mp hmem).1

theorem runningOn (h : SameLane lane s u) : u.runningOn lane = s.runningOn lane := by
  have hcount : ∀ v : Inner, v.runningOn lane =
      (v.laneTickets lane).countP (fun t => t.state = .running) := by
    intro v
    rw [Inner.runningOn, laneTickets, List.countP_filter]
    congr 1
    funext t
    simp [Bool.and_comm]
  rw [hcount, hcount, h.tickets]

theorem laneBusyForBackground (h : SameLane lane s u) :
    u.laneBusyForBackground lane = s.laneBusyForBackground lane := by
  have hbusy : ∀ v : Inner, v.laneBusyForBackground lane =
      ((v.laneTickets lane).any (fun t => t.priority = .foreground) ||
        (v.laneReservations lane).any (fun _ => true)) := by
    intro v
    rw [Inner.laneBusyForBackground, laneTickets, laneReservations, List.any_filter,
      List.any_filter]
    simp
  rw [hbusy, hbusy, h.tickets, h.reservations]

/-! ## Pump -/

theorem gate_held (h : SameLane lane s u) {t : Ticket} (hlane : t.lane = lane) :
    u.gate.held t = s.gate.held t := by
  have hbusy := h.laneBusyForBackground
  rw [← hlane] at hbusy
  simp [gate, hbusy]

end SameLane

theorem pump_laneTickets (s : Inner) (lane : String) :
    s.pump.laneTickets lane = s.gate.scan s.runningByLane (s.laneTickets lane) := by
  rw [laneTickets, pump_tickets, laneTickets]
  exact s.gate.scan_filter lane s.runningByLane s.runningByLane s.tickets rfl

@[simp] theorem pump_laneReservations (s : Inner) (lane : String) :
    s.pump.laneReservations lane = s.laneReservations lane := by
  rw [laneReservations, laneReservations, pump_reservations]

namespace SameLane

variable {lane : String} {s u v : Inner}

/-- A pump does the same on a lane whatever the other lanes are. -/
theorem pump (h : SameLane lane s u) : SameLane lane s.pump u.pump := by
  refine ⟨?_, ?_, ?_⟩
  · rw [pump_laneTickets, pump_laneTickets, h.tickets]
    have hcount : u.runningByLane lane = s.runningByLane lane := by
      rw [runningByLane_eq, runningByLane_eq, h.runningOn]
    have hjobs : ∀ t ∈ s.laneTickets lane, t.lane = lane := fun t ht =>
      ((s.mem_laneTickets lane t).mp ht).2
    have hheld : ∀ t ∈ s.laneTickets lane, u.gate.held t = s.gate.held t := fun t ht =>
      h.gate_held (hjobs t ht)
    exact s.gate.scan_congr u.gate rfl rfl rfl h.capacity hcount _ hjobs hheld
  · rw [pump_capacity, pump_capacity, h.capacity]
  · rw [pump_laneReservations, pump_laneReservations, h.reservations]

/-- Where nothing has changed on a lane, nobody on it was waiting for the pump. -/
theorem pump_right (h : SameLane lane s u) (hs : s.Conserved) : SameLane lane s u.pump := by
  have hself : SameLane lane s.pump u.pump := h.pump
  rw [hs.pump_eq_self] at hself
  exact hself

end SameLane

/-! ## Edits, lane by lane -/

/-- An acquire's ticket put where it goes, one ticket at a time. -/
def placed (a : Acquire) : List Ticket → List Ticket
  | [] => [a.ticket]
  | t :: ts =>
    if a.admission.front = true ∧ t.lane = a.lane ∧ t.state = .waiting ∧ t.front = false then
      a.ticket :: t :: ts
    else t :: placed a ts

theorem insertTicket_placed (a : Acquire) (ts : List Ticket) :
    insertTicket ts (if a.admission.front then
      ts.findIdx? (fun t => t.lane = a.lane ∧ t.state = .waiting ∧ t.front = false)
    else none) a.ticket = placed a ts := by
  induction ts with
  | nil =>
    split <;> rfl
  | cons t ts ih =>
    rw [placed]
    by_cases hfront : a.admission.front = true
    · rw [if_pos hfront] at ih ⊢
      rw [List.findIdx?_cons]
      by_cases hp : t.lane = a.lane ∧ t.state = .waiting ∧ t.front = false
      · rw [if_pos (by simpa using hp), if_pos ⟨hfront, hp⟩]
        rfl
      · rw [if_neg (by simpa using hp), if_neg (fun h => hp h.2), ← ih]
        cases ts.findIdx? (fun t => t.lane = a.lane ∧ t.state = .waiting ∧ t.front = false) with
        | none => rfl
        | some i => rfl
    · rw [if_neg hfront] at ih ⊢
      rw [if_neg (fun h => hfront h.1), ← ih]
      rfl

theorem filter_placed (a : Acquire) (lane : String) (ts : List Ticket) :
    (placed a ts).filter (fun t => t.lane = lane) =
      if a.lane = lane then placed a (ts.filter (fun t => t.lane = lane))
      else ts.filter (fun t => t.lane = lane) := by
  have hself : a.ticket.lane = a.lane := rfl
  induction ts with
  | nil =>
    rw [placed, List.filter_cons, hself]
    by_cases e : a.lane = lane <;> simp [e, placed]
  | cons t ts ih =>
    rw [placed]
    by_cases hp : a.admission.front = true ∧ t.lane = a.lane ∧ t.state = .waiting ∧ t.front = false
    · rw [if_pos hp]
      by_cases e : a.lane = lane
      · have ht : t.lane = lane := hp.2.1.trans e
        rw [List.filter_cons, hself, if_pos (by simpa using e),
          List.filter_cons_of_pos (by simpa using ht), if_pos e, placed, if_pos hp]
      · rw [List.filter_cons, hself, if_neg (by simpa using e), if_neg e]
    · rw [if_neg hp]
      by_cases ht : t.lane = lane
      · rw [List.filter_cons_of_pos (by simpa using ht), List.filter_cons_of_pos (by simpa using ht),
          ih, placed, if_neg hp]
        split <;> rfl
      · rw [List.filter_cons_of_neg (by simpa using ht), List.filter_cons_of_neg (by simpa using ht),
          ih]

/-- `updateFirst` on elements with distinct keys is a map. -/
theorem updateFirst_eq_map {α : Type} (key : α → String) (f : α → α) (id : String) (l : List α)
    (hnd : (l.map key).Nodup) : updateFirst (fun a => key a = id) f l =
      l.map (fun a => if key a = id then f a else a) := by
  induction l with
  | nil => rfl
  | cons a as ih =>
    obtain ⟨ha, has⟩ := List.nodup_cons.mp hnd
    rw [updateFirst, List.map_cons]
    by_cases e : key a = id
    · rw [if_pos (by simpa using e), if_pos e]
      have hrest : as.map (fun a => if key a = id then f a else a) = as := by
        have hno : ∀ b ∈ as, (if key b = id then f b else b) = b := by
          intro b hb
          rw [if_neg]
          intro eb
          exact ha ((eb.trans e.symm) ▸ List.mem_map_of_mem hb)
        rw [List.map_congr_left hno, List.map_id']
      rw [hrest]
    · rw [if_neg (by simpa using e), if_neg e, ih has]

theorem slot_insert (s : Inner) (a : Acquire) :
    insertTicket s.tickets (s.slot a) a.ticket = placed a s.tickets := by
  rw [← insertTicket_placed, slot]

theorem replacedReservations_lane (s : Inner) (a : Acquire) (lane : String) :
    (s.replacedReservations a).filter (fun r => r.lane = lane) =
      (s.laneReservations lane).filter (fun r => a.admission.replaces ≠ some r.id) := by
  rw [laneReservations, replacedReservations]
  cases a.admission.replaces with
  | none => simp
  | some old =>
    rw [List.filter_filter, List.filter_filter]
    congr 1
    funext r
    have hne : decide (r.id ≠ old) = decide (some old ≠ some r.id) := by
      rw [decide_eq_decide, ne_eq, ne_eq, Option.some.injEq, eq_comm]
    rw [hne, Bool.and_comm]

/-- Reservations are made by distinct requests. -/
def DistinctReservations (s : Inner) : Prop := (s.reservations.map Reservation.id).Nodup

theorem DistinctReservations.apply {s : Inner} (h : s.DistinctReservations) (hs : s.Sound)
    (op : Op) : (s.apply op).DistinctReservations := by
  have hfilter : ∀ p : Reservation → Bool, ((s.reservations.filter p).map Reservation.id).Nodup :=
    fun p => h.sublist (List.filter_sublist.map _)
  have hreclaim : ∀ pred, (s.reclaim pred).2.DistinctReservations := by
    intro pred
    rw [reclaim_eq]
    split
    · rw [DistinctReservations, pump_reservations, leaving_reservations]
      exact hfilter _
    · exact h
  cases op with
  | enqueueWith a =>
    by_cases hacc : s.accepts a = true
    · rw [DistinctReservations, hs.accepted_reservations hacc, replacedReservations]
      split
      · exact hfilter _
      · exact h
    · rw [DistinctReservations, refused_reservations (by simpa using hacc)]
      exact h
  | cancel reqId =>
    rw [DistinctReservations, hs.cancel_reservations]
    exact h
  | releaseWith reqId reserve now =>
    rw [DistinctReservations, hs.release_reservations, heldBack, List.map_append, List.nodup_append]
    refine ⟨hfilter _, ?_, ?_⟩
    · cases reserve with
      | false => exact List.nodup_nil
      | true =>
        rw [if_pos rfl, List.map_map]
        exact hs.ids_nodup.sublist (List.filter_sublist.map _)
    · intro x hx y hy e
      have hxid : x ≠ reqId := by
        obtain ⟨r, hr, rfl⟩ := List.mem_map.mp hx
        simpa using (List.mem_filter.mp hr).2
      have hyid : y = reqId := by
        cases reserve with
        | false => cases hy
        | true =>
          rw [if_pos rfl, List.map_map] at hy
          obtain ⟨t, ht, rfl⟩ := List.mem_map.mp hy
          simpa using (List.mem_filter.mp ht).2
      exact hxid (e.trans hyid)
  | heartbeat reqId now =>
    have hids := (s.quiet_heartbeat reqId now).reservations_map_eq Reservation.id (fun _ _ => rfl)
    rw [DistinctReservations, Inner.apply, hids]
    exact h
  | releaseWindow label => exact hreclaim _
  | sweepExpiredAt now => exact hreclaim _

theorem Sound.heartbeat_laneTickets {s : Inner} (hs : s.Sound) (lane reqId : String)
    (now : UInt64) : (s.heartbeat reqId now).laneTickets lane = (s.laneTickets lane).map
      (fun t => if t.id = reqId then { t with leaseExpiresAt := now + leaseTtlMs } else t) := by
  rw [laneTickets, laneTickets, heartbeat]
  dsimp only
  rw [updateFirst_eq_map Ticket.id _ _ _ hs.ids_nodup, List.filter_map]
  congr 2
  funext t
  rw [Function.comp_apply]
  split <;> rfl

theorem DistinctReservations.heartbeat_laneReservations {s : Inner} (h : s.DistinctReservations)
    (lane reqId : String) (now : UInt64) :
    (s.heartbeat reqId now).laneReservations lane = (s.laneReservations lane).map
      (fun r => if r.id = reqId then { r with leaseExpiresAt := now + leaseTtlMs } else r) := by
  rw [laneReservations, laneReservations, heartbeat]
  dsimp only
  rw [updateFirst_eq_map Reservation.id _ _ _ h, List.filter_map]
  congr 2
  funext r
  rw [Function.comp_apply]
  split <;> rfl

namespace SameLane

variable {lane : String} {s u v : Inner}

theorem leaving (h : SameLane lane s u) (keep : Ticket → Bool) {rs rs' : List Reservation}
    (hrs : rs'.filter (fun r => r.lane = lane) = rs.filter (fun r => r.lane = lane)) :
    SameLane lane (s.leaving keep rs) (u.leaving keep rs') := by
  refine ⟨?_, ?_, ?_⟩
  · have hcomm : ∀ w : Inner, ∀ rs, (w.leaving keep rs).laneTickets lane =
        (w.laneTickets lane).filter keep := by
      intro w rs
      rw [laneTickets, leaving_tickets, laneTickets, List.filter_filter, List.filter_filter]
      congr 1
      funext t
      rw [Bool.and_comm]
    rw [hcomm, hcomm, h.tickets]
  · rw [Inner.capacity, leaving_laneCapacity, Inner.capacity, leaving_laneCapacity]
    exact h.capacity
  · rw [laneReservations, leaving_reservations, laneReservations, leaving_reservations, hrs]

/-- Taking out tickets and reservations of other lanes only. -/
theorem leaving_right (s : Inner) (lane : String) {keep : Ticket → Bool} {rs : List Reservation}
    (hkeep : ∀ t ∈ s.tickets, t.lane = lane → keep t = true)
    (hrs : rs.filter (fun r => r.lane = lane) = s.laneReservations lane) :
    SameLane lane s (s.leaving keep rs) := by
  refine ⟨?_, ?_, ?_⟩
  · have hself : (s.laneTickets lane).filter keep = s.laneTickets lane := by
      rw [List.filter_eq_self]
      intro t ht
      obtain ⟨ht, hlane⟩ := (s.mem_laneTickets lane t).mp ht
      exact hkeep t ht hlane
    calc (s.leaving keep rs).laneTickets lane
        = (s.tickets.filter keep).filter (fun t => t.lane = lane) := by
          rw [laneTickets, leaving_tickets]
      _ = (s.laneTickets lane).filter keep := by
          rw [laneTickets, List.filter_filter, List.filter_filter]
          congr 1
          funext t
          rw [Bool.and_comm]
      _ = s.laneTickets lane := hself
  · rw [Inner.capacity, leaving_laneCapacity, Inner.capacity]
  · rw [laneReservations, leaving_reservations, hrs]

theorem enqueued (h : SameLane lane s u) (hs : s.Sound) (hu : u.Sound) {a : Acquire}
    (hsacc : s.accepts a = true) (huacc : u.accepts a = true) :
    SameLane lane (s.enqueued a).2 (u.enqueued a).2 := by
  have hse := enqueued_eq s a (hs.sender_none ((s.accepts_iff a).mp hsacc).1)
  have hue := enqueued_eq u a (hu.sender_none ((u.accepts_iff a).mp huacc).1)
  refine ⟨?_, ?_, ?_⟩
  · have hticket := h.tickets
    rw [laneTickets, laneTickets] at hticket
    rw [laneTickets, laneTickets, hse, hue]
    dsimp only
    rw [slot_insert, slot_insert, filter_placed, filter_placed, hticket]
  · rw [hse, hue, Inner.capacity, Inner.capacity]
    dsimp only
    by_cases e : lane = a.lane
    · rw [e, Function.update_self, Function.update_self]
    · rw [Function.update_of_ne e, Function.update_of_ne e]
      exact h.capacity
  · rw [laneReservations, laneReservations, hse, hue]
    dsimp only
    rw [replacedReservations_lane, replacedReservations_lane, h.reservations]

/-- An acquire for another lane that replaces no reservation of this one. -/
theorem enqueued_right (hs : s.Sound) {a : Acquire} (hacc : s.accepts a = true)
    (hlane : a.lane ≠ lane)
    (hrep : ∀ r ∈ s.reservations, r.lane = lane → a.admission.replaces ≠ some r.id) :
    SameLane lane s (s.enqueued a).2 := by
  have he := enqueued_eq s a (hs.sender_none ((s.accepts_iff a).mp hacc).1)
  refine ⟨?_, ?_, ?_⟩
  · rw [laneTickets, laneTickets, he]
    dsimp only
    rw [slot_insert, filter_placed, if_neg hlane]
  · rw [he, Inner.capacity, Inner.capacity]
    dsimp only
    rw [Function.update_of_ne (Ne.symm hlane)]
  · rw [laneReservations, he]
    dsimp only
    rw [replacedReservations_lane, List.filter_eq_self]
    intro r hr
    obtain ⟨hr, hrl⟩ := (s.mem_laneReservations lane r).mp hr
    simpa using hrep r hr hrl

theorem heartbeat (h : SameLane lane s u) (hs : s.Sound) (hu : u.Sound)
    (hsr : s.DistinctReservations) (hur : u.DistinctReservations) (reqId : String) (now : UInt64) :
    SameLane lane (s.heartbeat reqId now) (u.heartbeat reqId now) := by
  refine ⟨?_, h.capacity, ?_⟩
  · rw [hs.heartbeat_laneTickets, hu.heartbeat_laneTickets, h.tickets]
  · rw [hsr.heartbeat_laneReservations, hur.heartbeat_laneReservations, h.reservations]

end SameLane

/-! ## One call -/

/-- A call whose ticket and reservation, the replaced one included, are not on `lane`. -/
def Avoids (s : Inner) (lane : String) : Op → Prop
  | .enqueueWith a => a.lane ≠ lane ∧
      ∀ r ∈ s.reservations, r.lane = lane → a.admission.replaces ≠ some r.id
  | .cancel reqId => ∀ t ∈ s.tickets, t.lane = lane → t.id ≠ reqId
  | .releaseWith reqId _ _ => (∀ t ∈ s.tickets, t.lane = lane → t.id ≠ reqId) ∧
      ∀ r ∈ s.reservations, r.lane = lane → r.id ≠ reqId
  | .heartbeat reqId _ => (∀ t ∈ s.tickets, t.lane = lane → t.id ≠ reqId) ∧
      ∀ r ∈ s.reservations, r.lane = lane → r.id ≠ reqId
  | .releaseWindow label => (∀ t ∈ s.tickets, t.lane = lane → t.ownerWindow ≠ label) ∧
      ∀ r ∈ s.reservations, r.lane = lane → r.ownerWindow ≠ label
  | .sweepExpiredAt now => (∀ t ∈ s.tickets, t.lane = lane → ¬ t.leaseExpiresAt < now) ∧
      ∀ r ∈ s.reservations, r.lane = lane → ¬ r.leaseExpiresAt < now

theorem heldBack_lane {s : Inner} {lane reqId : String} (reserve : Bool) (now : UInt64)
    (hticket : ∀ t ∈ s.tickets, t.lane = lane → t.id ≠ reqId)
    (hres : ∀ r ∈ s.reservations, r.lane = lane → r.id ≠ reqId) :
    (s.heldBack reqId reserve now).filter (fun r => r.lane = lane) = s.laneReservations lane := by
  have hfirst : (s.reservations.filter (fun r => r.id ≠ reqId)).filter (fun r => r.lane = lane) =
      s.laneReservations lane := by
    rw [List.filter_comm, ← laneReservations, List.filter_eq_self]
    intro r hr
    obtain ⟨hr, hlane⟩ := (s.mem_laneReservations lane r).mp hr
    simpa using hres r hr hlane
  rw [heldBack, List.filter_append, hfirst]
  cases reserve with
  | false => simp
  | true =>
    have hnone : (((s.tickets.filter (fun t => t.id = reqId)).map (fun t =>
        (⟨t.id, t.lane, t.ownerWindow, now + leaseTtlMs⟩ : Reservation))).filter
          (fun r => r.lane = lane)) = [] := by
      rw [List.filter_eq_nil_iff]
      intro r hr
      obtain ⟨t, ht, rfl⟩ := List.mem_map.mp hr
      obtain ⟨ht, hid⟩ := List.mem_filter.mp ht
      have hid : t.id = reqId := by simpa using hid
      simpa using fun hlane => hticket t ht hlane hid
    rw [if_pos rfl, hnone, List.append_nil]

theorem reclaim_sameLane {s : Inner} (hc : s.Conserved) (lane : String)
    (pred : String → UInt64 → Bool)
    (hticket : ∀ t ∈ s.tickets, t.lane = lane → pred t.ownerWindow t.leaseExpiresAt = false)
    (hres : ∀ r ∈ s.reservations, r.lane = lane → pred r.ownerWindow r.leaseExpiresAt = false) :
    SameLane lane s (s.reclaim pred).2 := by
  rw [reclaim_eq]
  split
  · refine (SameLane.leaving_right s lane ?_ ?_).pump_right hc
    · intro t ht hlane
      rw [hticket t ht hlane, Bool.not_false]
    · rw [List.filter_comm, ← laneReservations, List.filter_eq_self]
      intro r hr
      obtain ⟨hr, hlane⟩ := (s.mem_laneReservations lane r).mp hr
      rw [hres r hr hlane, Bool.not_false]
  · exact SameLane.refl lane s

theorem refused_sameLane {s : Inner} {a : Acquire} (hacc : s.accepts a = false) (lane : String) :
    SameLane lane s (s.apply (.enqueueWith a)) := by
  rcases apply_refused hacc with e | ⟨-, e⟩
  · rw [e]
    exact SameLane.refl lane s
  · rw [e]
    exact ⟨rfl, rfl, rfl⟩

/-- A call that avoids a lane leaves it as it was. -/
theorem Avoids.sameLane {s : Inner} (hs : s.Sound) (hc : s.Conserved) {lane : String} {op : Op}
    (hr : s.DistinctReservations) (h : s.Avoids lane op) : SameLane lane s (s.apply op) := by
  cases op with
  | enqueueWith a =>
    by_cases hacc : s.accepts a = true
    · rw [apply_accepted hacc]
      exact (SameLane.enqueued_right hs hacc h.1 h.2).pump_right hc
    · exact refused_sameLane (by simpa using hacc) lane
  | cancel reqId =>
    by_cases hex : ∃ t ∈ s.tickets, t.id = reqId
    · obtain ⟨t, ht, rfl⟩ := hex
      cases hstate : t.state with
      | waiting =>
        rw [hs.apply_cancel_waiting ht hstate]
        refine (SameLane.leaving_right s lane ?_ rfl).pump_right hc
        intro u hu hlane
        simpa using h u hu hlane
      | running =>
        rw [hs.apply_cancel_running ht hstate]
        exact SameLane.refl lane s
    · rw [apply_cancel_absent (fun t ht e => hex ⟨t, ht, e⟩)]
      exact ⟨rfl, rfl, rfl⟩
  | releaseWith reqId reserve now =>
    by_cases hin : (∃ t ∈ s.tickets, t.id = reqId) ∨ ∃ r ∈ s.reservations, r.id = reqId
    · rw [hs.apply_release reserve now hin]
      refine (SameLane.leaving_right s lane ?_ (heldBack_lane reserve now h.1 h.2)).pump_right hc
      intro u hu hlane
      simpa using h.1 u hu hlane
    · obtain ⟨hticket, hres⟩ := not_or.mp hin
      rw [apply_release_absent reserve now (fun t ht e => hticket ⟨t, ht, e⟩)
        (fun r hr e => hres ⟨r, hr, e⟩)]
      exact SameLane.refl lane s
  | heartbeat reqId now =>
    refine ⟨?_, rfl, ?_⟩
    · have hsame : ∀ t ∈ s.laneTickets lane, (if t.id = reqId then
          { t with leaseExpiresAt := now + leaseTtlMs } else t) = t := by
        intro t ht
        obtain ⟨ht, hlane⟩ := (s.mem_laneTickets lane t).mp ht
        exact if_neg (h.1 t ht hlane)
      rw [apply, hs.heartbeat_laneTickets, List.map_congr_left hsame, List.map_id']
    · have hsame : ∀ r ∈ s.laneReservations lane, (if r.id = reqId then
          { r with leaseExpiresAt := now + leaseTtlMs } else r) = r := by
        intro r hr
        obtain ⟨hr, hlane⟩ := (s.mem_laneReservations lane r).mp hr
        exact if_neg (h.2 r hr hlane)
      rw [apply, hr.heartbeat_laneReservations, List.map_congr_left hsame, List.map_id']
  | releaseWindow label =>
    refine reclaim_sameLane hc lane _ ?_ ?_
    · intro t ht hlane
      simpa using h.1 t ht hlane
    · intro r hr hlane
      simpa using h.2 r hr hlane
  | sweepExpiredAt now =>
    refine reclaim_sameLane hc lane _ ?_ ?_
    · intro t ht hlane
      simpa using h.1 t ht hlane
    · intro r hr hlane
      simpa using h.2 r hr hlane

/-- The senders of a lane's tickets stay what they were where its tickets do. -/
theorem Sound.lane_senders {s : Inner} (hs : s.Sound) {lane : String} {op : Op}
    (h : SameLane lane s (s.apply op)) {t : Ticket} (ht : t ∈ s.tickets) (hlane : t.lane = lane) :
    (s.apply op).senders t.id = s.senders t.id := by
  have ht' := h.mem ht hlane
  cases hsender : s.senders t.id with
  | some k =>
    obtain ⟨u, hu, hid, hwait⟩ := (hs.sender_iff t.id).mp (by rw [hsender]; rfl)
    rw [hs.eq_of_id hu ht hid] at hwait
    exact (hs.apply_answers op hsender).sender ((hs.apply op).answer_waiting ht' hwait)
  | none =>
    by_contra hsome
    obtain ⟨u, hu, hid, hwait⟩ := ((hs.apply op).sender_iff t.id).mp
      (Option.isSome_iff_ne_none.mpr hsome)
    rw [(hs.apply op).eq_of_id hu ht' hid] at hwait
    have hsome := (hs.sender_iff t.id).mpr ⟨t, ht, rfl, hwait⟩
    rw [hsender] at hsome
    cases hsome

theorem SameLane.onLane {lane : String} {s u : Inner} (h : SameLane lane s u) (hs : s.Sound)
    (hu : u.Sound) : u.onLane lane = s.onLane lane := by
  have hsenders : ∀ v : Inner, v.Sound → (v.laneTickets lane).map
      (fun t => (v.senders t.id).isSome) =
        (v.laneTickets lane).map (fun t => decide (t.state = .waiting)) := by
    intro v hv
    refine List.map_congr_left ?_
    intro t ht
    obtain ⟨ht, -⟩ := (v.mem_laneTickets lane t).mp ht
    rw [Bool.eq_iff_iff, hv.sender_iff, decide_eq_true_eq]
    constructor
    · intro ⟨u, hu, hid, hwait⟩
      rw [hv.eq_of_id hu ht hid] at hwait
      exact hwait
    · exact fun hwait => ⟨t, ht, rfl, hwait⟩
  rw [Inner.onLane, Inner.onLane, hsenders u hu, hsenders s hs, h.tickets, h.capacity,
    h.reservations]

theorem Avoids.of_sameLane {lane : String} {s u : Inner} {op : Op} (h : s.Avoids lane op)
    (hsame : SameLane lane s u) : u.Avoids lane op := by
  cases op with
  | enqueueWith a =>
    exact ⟨h.1, fun r hr hlane => h.2 r (hsame.symm.mem_reservations hr hlane) hlane⟩
  | cancel reqId => exact fun t ht hlane => h t (hsame.symm.mem ht hlane) hlane
  | releaseWith reqId reserve now =>
    exact ⟨fun t ht hlane => h.1 t (hsame.symm.mem ht hlane) hlane,
      fun r hr hlane => h.2 r (hsame.symm.mem_reservations hr hlane) hlane⟩
  | heartbeat reqId now =>
    exact ⟨fun t ht hlane => h.1 t (hsame.symm.mem ht hlane) hlane,
      fun r hr hlane => h.2 r (hsame.symm.mem_reservations hr hlane) hlane⟩
  | releaseWindow label =>
    exact ⟨fun t ht hlane => h.1 t (hsame.symm.mem ht hlane) hlane,
      fun r hr hlane => h.2 r (hsame.symm.mem_reservations hr hlane) hlane⟩
  | sweepExpiredAt now =>
    exact ⟨fun t ht hlane => h.1 t (hsame.symm.mem ht hlane) hlane,
      fun r hr hlane => h.2 r (hsame.symm.mem_reservations hr hlane) hlane⟩

theorem heldBack_congr {lane : String} {s u : Inner} (h : SameLane lane s u) (reqId : String)
    (reserve : Bool) (now : UInt64) :
    (u.heldBack reqId reserve now).filter (fun r => r.lane = lane) =
      (s.heldBack reqId reserve now).filter (fun r => r.lane = lane) := by
  have hsplit : ∀ v : Inner, (v.heldBack reqId reserve now).filter (fun r => r.lane = lane) =
      (v.laneReservations lane).filter (fun r => r.id ≠ reqId) ++
        if reserve then ((v.laneTickets lane).filter (fun t => t.id = reqId)).map
          (fun t => ⟨t.id, t.lane, t.ownerWindow, now + leaseTtlMs⟩) else [] := by
    intro v
    rw [heldBack, List.filter_append, List.filter_comm, laneReservations, laneTickets]
    congr 1
    cases reserve with
    | false => rfl
    | true =>
      rw [if_pos rfl, if_pos rfl, List.filter_map, List.filter_comm]
      rfl
  rw [hsplit, hsplit, h.tickets, h.reservations]

theorem SameLane.reclaim {lane : String} {s u : Inner} (h : SameLane lane s u)
    (pred : String → UInt64 → Bool)
    (hhit : (∃ t ∈ s.tickets, t.lane = lane ∧ pred t.ownerWindow t.leaseExpiresAt = true) ∨
      ∃ r ∈ s.reservations, r.lane = lane ∧ pred r.ownerWindow r.leaseExpiresAt = true) :
    SameLane lane (s.reclaim pred).2 (u.reclaim pred).2 := by
  have hs : (∃ t ∈ s.tickets, pred t.ownerWindow t.leaseExpiresAt = true) ∨
      ∃ r ∈ s.reservations, pred r.ownerWindow r.leaseExpiresAt = true :=
    hhit.imp (fun ⟨t, ht, _, hp⟩ => ⟨t, ht, hp⟩) (fun ⟨r, hr, _, hp⟩ => ⟨r, hr, hp⟩)
  have hu : (∃ t ∈ u.tickets, pred t.ownerWindow t.leaseExpiresAt = true) ∨
      ∃ r ∈ u.reservations, pred r.ownerWindow r.leaseExpiresAt = true :=
    hhit.imp (fun ⟨t, ht, hlane, hp⟩ => ⟨t, h.mem ht hlane, hp⟩)
      (fun ⟨r, hr, hlane, hp⟩ => ⟨r, h.mem_reservations hr hlane, hp⟩)
  rw [reclaim_eq, reclaim_eq, if_pos hs, if_pos hu]
  refine (h.leaving _ ?_).pump
  have hres := h.reservations
  rw [laneReservations, laneReservations] at hres
  rw [List.filter_comm, hres, List.filter_comm]

/-- Two states alike on a lane stay alike through a call, one that both accept or both refuse if it
is an acquire. -/
theorem SameLane.apply {lane : String} {s u : Inner} (h : SameLane lane s u) {op : Op}
    (hs : s.Sound) (hu : u.Sound) (hsc : s.Conserved) (huc : u.Conserved)
    (hsr : s.DistinctReservations) (hur : u.DistinctReservations)
    (hacc : ∀ a, op = .enqueueWith a → u.accepts a = s.accepts a) :
    SameLane lane (s.apply op) (u.apply op) := by
  have hquiet : s.Avoids lane op → SameLane lane (s.apply op) (u.apply op) := by
    intro havoid
    have hleft := havoid.sameLane hs hsc hsr
    have hright := (havoid.of_sameLane h).sameLane hu huc hur
    exact (hleft.symm.trans h).trans hright
  cases op with
  | enqueueWith a =>
    have hsame := hacc a rfl
    by_cases hsacc : s.accepts a = true
    · have huacc : u.accepts a = true := hsame.trans hsacc
      rw [apply_accepted hsacc, apply_accepted huacc]
      exact (h.enqueued hs hu hsacc huacc).pump
    · have hsacc : s.accepts a = false := by simpa using hsacc
      have hleft := refused_sameLane hsacc lane
      have hright := refused_sameLane (hsame.trans hsacc) lane
      exact (hleft.symm.trans h).trans hright
  | cancel reqId =>
    by_cases hhit : ∃ t ∈ s.tickets, t.lane = lane ∧ t.id = reqId
    · obtain ⟨t, ht, hlane, rfl⟩ := hhit
      have ht' := h.mem ht hlane
      cases hstate : t.state with
      | waiting =>
        rw [hs.apply_cancel_waiting ht hstate, hu.apply_cancel_waiting ht' hstate]
        exact (h.leaving _ h.reservations).pump
      | running =>
        rw [hs.apply_cancel_running ht hstate, hu.apply_cancel_running ht' hstate]
        exact h
    · exact hquiet (fun t ht hlane hid => hhit ⟨t, ht, hlane, hid⟩)
  | releaseWith reqId reserve now =>
    by_cases hhit : (∃ t ∈ s.tickets, t.lane = lane ∧ t.id = reqId) ∨
        ∃ r ∈ s.reservations, r.lane = lane ∧ r.id = reqId
    · have hsin : (∃ t ∈ s.tickets, t.id = reqId) ∨ ∃ r ∈ s.reservations, r.id = reqId :=
        hhit.imp (fun ⟨t, ht, _, hid⟩ => ⟨t, ht, hid⟩) (fun ⟨r, hr, _, hid⟩ => ⟨r, hr, hid⟩)
      have huin : (∃ t ∈ u.tickets, t.id = reqId) ∨ ∃ r ∈ u.reservations, r.id = reqId :=
        hhit.imp (fun ⟨t, ht, hlane, hid⟩ => ⟨t, h.mem ht hlane, hid⟩)
          (fun ⟨r, hr, hlane, hid⟩ => ⟨r, h.mem_reservations hr hlane, hid⟩)
      rw [hs.apply_release reserve now hsin, hu.apply_release reserve now huin]
      exact (h.leaving _ (heldBack_congr h reqId reserve now)).pump
    · obtain ⟨hticket, hres⟩ := not_or.mp hhit
      exact hquiet ⟨fun t ht hlane hid => hticket ⟨t, ht, hlane, hid⟩,
        fun r hr hlane hid => hres ⟨r, hr, hlane, hid⟩⟩
  | heartbeat reqId now => exact h.heartbeat hs hu hsr hur reqId now
  | releaseWindow label =>
    by_cases hhit : (∃ t ∈ s.tickets, t.lane = lane ∧ decide (t.ownerWindow = label) = true) ∨
        ∃ r ∈ s.reservations, r.lane = lane ∧ decide (r.ownerWindow = label) = true
    · exact h.reclaim (fun owner _ => owner = label) hhit
    · obtain ⟨hticket, hres⟩ := not_or.mp hhit
      exact hquiet ⟨fun t ht hlane hp => hticket ⟨t, ht, hlane, by simpa using hp⟩,
        fun r hr hlane hp => hres ⟨r, hr, hlane, by simpa using hp⟩⟩
  | sweepExpiredAt now =>
    by_cases hhit : (∃ t ∈ s.tickets, t.lane = lane ∧ decide (t.leaseExpiresAt < now) = true) ∨
        ∃ r ∈ s.reservations, r.lane = lane ∧ decide (r.leaseExpiresAt < now) = true
    · exact h.reclaim (fun _ lease => lease < now) hhit
    · obtain ⟨hticket, hres⟩ := not_or.mp hhit
      exact hquiet ⟨fun t ht hlane hp => hticket ⟨t, ht, hlane, by simpa using hp⟩,
        fun r hr hlane hp => hres ⟨r, hr, hlane, by simpa using hp⟩⟩

end Inner

end Haruspex.InferenceQueue
