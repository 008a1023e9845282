import Haruspex.InferenceQueue.Steps

/-! Which tickets and reservations a call keeps, and where the ones after it come from. -/
namespace Haruspex.InferenceQueue
set_option autoImplicit false

/-- Whether a call leaves a ticket in the queue. -/
def Op.keepsTicket : Op → Ticket → Bool
  | .cancel reqId, t => t.id ≠ reqId
  | .releaseWith reqId _ _, t => t.id ≠ reqId
  | .releaseWindow label, t => t.ownerWindow ≠ label
  | .sweepExpiredAt now, t => ¬ t.leaseExpiresAt < now
  | _, _ => true

/-- Whether a call leaves a reservation in place. -/
def Op.keepsReservation : Op → Reservation → Bool
  | .enqueueWith a, r => a.admission.replaces ≠ some r.id
  | .releaseWith reqId _ _, r => r.id ≠ reqId
  | .releaseWindow label, r => r.ownerWindow ≠ label
  | .sweepExpiredAt now, r => ¬ r.leaseExpiresAt < now
  | _, _ => true

/-- `t'` is the ticket `t` at some other time: its state and its lease may differ. -/
def Ticket.Same (t t' : Ticket) : Prop :=
  t' = { t with state := t'.state, leaseExpiresAt := t'.leaseExpiresAt }

/-- `r'` is the reservation `r` at some other time: its lease may differ. -/
def Reservation.Same (r r' : Reservation) : Prop :=
  r' = { r with leaseExpiresAt := r'.leaseExpiresAt }

theorem Ticket.Same.id_eq {t t' : Ticket} (h : t.Same t') : t'.id = t.id := by rw [h]

theorem Ticket.Same.lane_eq {t t' : Ticket} (h : t.Same t') : t'.lane = t.lane := by rw [h]

theorem Ticket.Same.priority_eq {t t' : Ticket} (h : t.Same t') : t'.priority = t.priority := by
  rw [h]

theorem Ticket.Same.ownerWindow_eq {t t' : Ticket} (h : t.Same t') :
    t'.ownerWindow = t.ownerWindow := by
  rw [h]

theorem Reservation.Same.id_eq {r r' : Reservation} (h : r.Same r') : r'.id = r.id := by rw [h]

theorem Reservation.Same.lane_eq {r r' : Reservation} (h : r.Same r') : r'.lane = r.lane := by
  rw [h]

theorem Reservation.Same.ownerWindow_eq {r r' : Reservation} (h : r.Same r') :
    r'.ownerWindow = r.ownerWindow := by
  rw [h]

theorem Ticket.Same.trans {t u v : Ticket} (h : t.Same u) (h' : u.Same v) : t.Same v := by
  rw [Ticket.Same, h', h]

namespace Inner

/-! ## Tickets -/

theorem Sound.pump_kept {m : Inner} (h : m.Sound) {t : Ticket} (ht : t ∈ m.tickets) :
    ∃ t' ∈ m.pump.tickets, t.Same t' := by
  by_cases hp : t ∈ m.pumped
  · exact ⟨t.start, (h.mem_pump _).mpr (Or.inr ⟨t, hp, rfl⟩), rfl⟩
  · exact ⟨t, (h.mem_pump t).mpr (Or.inl ⟨ht, hp⟩), rfl⟩

theorem Sound.pump_origin {m : Inner} (h : m.Sound) {t' : Ticket} (ht' : t' ∈ m.pump.tickets) :
    ∃ t ∈ m.tickets, t.Same t' := by
  rcases (h.mem_pump t').mp ht' with ⟨ht, -⟩ | ⟨t, ht, rfl⟩
  · exact ⟨t', ht, rfl⟩
  · exact ⟨t, (mem_pumped ht).1, rfl⟩

theorem Sound.leaving_kept {s : Inner} (h : s.Sound) (keep : Ticket → Bool)
    (rs : List Reservation) {t : Ticket} (ht : t ∈ s.tickets) (hk : keep t = true) :
    ∃ t' ∈ (s.leaving keep rs).pump.tickets, t.Same t' := by
  refine (h.leaving keep rs).pump_kept ?_
  rw [leaving_tickets]
  exact List.mem_filter.mpr ⟨ht, hk⟩

theorem Quiet.kept {s s' : Inner} (h : s.Quiet s') {t : Ticket} (ht : t ∈ s.tickets) :
    ∃ t' ∈ s'.tickets, t.Same t' := by
  obtain ⟨t', ht', e⟩ := h.mem_after ht
  refine ⟨t', ht', ?_⟩
  have hstate : t'.state = t.state := by rw [e]
  rw [Ticket.Same, hstate]
  exact e

theorem reclaim_kept {s : Inner} (h : s.Sound) (pred : String → UInt64 → Bool) {t : Ticket}
    (ht : t ∈ s.tickets) (hk : pred t.ownerWindow t.leaseExpiresAt = false) :
    ∃ t' ∈ (s.reclaim pred).2.tickets, t.Same t' := by
  rw [reclaim_eq]
  split
  · exact h.leaving_kept _ _ ht (by simp [hk])
  · exact ⟨t, ht, rfl⟩

/-- A call keeps the tickets it does not take out. -/
theorem Sound.ticket_kept {s : Inner} (h : s.Sound) (op : Op) {t : Ticket} (ht : t ∈ s.tickets)
    (hk : op.keepsTicket t = true) : ∃ t' ∈ (s.apply op).tickets, t.Same t' := by
  cases op with
  | enqueueWith a =>
    by_cases hacc : s.accepts a = true
    · rw [apply_accepted hacc]
      have hs := h.enqueued a ((s.accepts_iff a).mp hacc).1
      exact hs.pump_kept ((h.mem_enqueued hacc t).mpr (Or.inr ht))
    · rcases apply_refused (by simpa using hacc) with e | ⟨-, e⟩ <;> rw [e] <;>
        exact ⟨t, ht, rfl⟩
  | cancel reqId =>
    have hid : t.id ≠ reqId := by simpa [Op.keepsTicket] using hk
    by_cases hex : ∃ u ∈ s.tickets, u.id = reqId
    · obtain ⟨u, hu, rfl⟩ := hex
      cases hstate : u.state with
      | waiting =>
        rw [h.apply_cancel_waiting hu hstate]
        exact h.leaving_kept _ _ ht (by simpa using hid)
      | running =>
        rw [h.apply_cancel_running hu hstate]
        exact ⟨t, ht, rfl⟩
    · rw [apply_cancel_absent (fun u hu e => hex ⟨u, hu, e⟩)]
      exact ⟨t, ht, rfl⟩
  | releaseWith reqId reserve now =>
    have hid : t.id ≠ reqId := by simpa [Op.keepsTicket] using hk
    by_cases hin : (∃ u ∈ s.tickets, u.id = reqId) ∨ ∃ r ∈ s.reservations, r.id = reqId
    · rw [h.apply_release reserve now hin]
      exact h.leaving_kept _ _ ht (by simpa using hid)
    · obtain ⟨hticket, hres⟩ := not_or.mp hin
      rw [apply_release_absent reserve now (fun u hu e => hticket ⟨u, hu, e⟩)
        (fun r hr e => hres ⟨r, hr, e⟩)]
      exact ⟨t, ht, rfl⟩
  | heartbeat reqId now => exact (s.quiet_heartbeat reqId now).kept ht
  | releaseWindow label =>
    exact reclaim_kept h _ ht (by simpa [Op.keepsTicket] using hk)
  | sweepExpiredAt now =>
    exact reclaim_kept h _ ht (by simpa [Op.keepsTicket] using hk)

/-- A ticket after a call was there before, or the call is the acquire that brought it. -/
theorem Sound.ticket_origin {s : Inner} (h : s.Sound) (op : Op) {t' : Ticket}
    (ht' : t' ∈ (s.apply op).tickets) :
    (∃ t ∈ s.tickets, t.Same t') ∨
      ∃ a, op = .enqueueWith a ∧ s.accepts a = true ∧ a.ticket.Same t' := by
  have hstep := h.step op
  generalize s.apply op = s' at hstep ht'
  cases hstep with
  | quiet hq _ =>
    obtain ⟨t, ht, e⟩ := hq.mem ht'
    refine Or.inl ⟨t, ht, ?_⟩
    have hstate : t'.state = t.state := by rw [e]
    rw [Ticket.Same, hstate]
    exact e
  | @join a hacc =>
    obtain ⟨t, ht, hsame⟩ := (h.enqueued a ((s.accepts_iff a).mp hacc).1).pump_origin ht'
    rcases (h.mem_enqueued hacc t).mp ht with rfl | ht
    · exact Or.inr ⟨a, rfl, hacc, hsame⟩
    · exact Or.inl ⟨t, ht, hsame⟩
  | leave keep rs _ =>
    obtain ⟨t, ht, hsame⟩ := (h.leaving keep rs).pump_origin ht'
    rw [leaving_tickets] at ht
    exact Or.inl ⟨t, (List.mem_filter.mp ht).1, hsame⟩

/-- The request an acquire registers is in the queue after it, unless it was refused. -/
theorem Sound.accepted_mem {s : Inner} (h : s.Sound) {a : Acquire} (hacc : s.accepts a = true) :
    ∃ t ∈ (s.apply (.enqueueWith a)).tickets, a.ticket.Same t := by
  rw [apply_accepted hacc]
  have hs := h.enqueued a ((s.accepts_iff a).mp hacc).1
  exact hs.pump_kept ((h.mem_enqueued hacc _).mpr (Or.inl rfl))

/-- A release takes its ticket out. -/
theorem Sound.released_gone {s : Inner} (h : s.Sound) (reqId : String) (reserve : Bool)
    (now : UInt64) : ∀ t ∈ (s.apply (.releaseWith reqId reserve now)).tickets, t.id ≠ reqId := by
  by_cases hin : (∃ u ∈ s.tickets, u.id = reqId) ∨ ∃ r ∈ s.reservations, r.id = reqId
  · rw [h.apply_release reserve now hin]
    intro t ht
    obtain ⟨u, hu, e⟩ := (h.leaving _ _).pump_origin ht
    rw [leaving_tickets] at hu
    have hid : u.id ≠ reqId := by simpa using (List.mem_filter.mp hu).2
    rw [e]
    exact hid
  · obtain ⟨hticket, hres⟩ := not_or.mp hin
    rw [apply_release_absent reserve now (fun u hu e => hticket ⟨u, hu, e⟩)
      (fun r hr e => hres ⟨r, hr, e⟩)]
    exact fun t ht e => hticket ⟨t, ht, e⟩

/-! ## Reservations -/

theorem Quiet.reservation_kept {s s' : Inner} (h : s.Quiet s') {r : Reservation}
    (hr : r ∈ s.reservations) : ∃ r' ∈ s'.reservations, r.Same r' := by
  obtain ⟨i, hi, rfl⟩ := List.mem_iff_getElem.mp hr
  have hlen := h.reservations.length_eq
  have hi' : i < s'.reservations.length := by omega
  exact ⟨s'.reservations[i], List.getElem_mem _, h.reservations.get hi hi'⟩

theorem Quiet.reservation_origin {s s' : Inner} (h : s.Quiet s') {r' : Reservation}
    (hr' : r' ∈ s'.reservations) : ∃ r ∈ s.reservations, r.Same r' := by
  obtain ⟨i, hi, rfl⟩ := List.mem_iff_getElem.mp hr'
  have hlen := h.reservations.length_eq
  have hi' : i < s.reservations.length := by omega
  exact ⟨s.reservations[i], List.getElem_mem _, h.reservations.get hi' hi⟩

theorem mem_replacedReservations (s : Inner) (a : Acquire) (r : Reservation) :
    r ∈ s.replacedReservations a ↔ r ∈ s.reservations ∧ a.admission.replaces ≠ some r.id := by
  rw [replacedReservations]
  cases a.admission.replaces with
  | none => simp
  | some old =>
    have hne : r.id ≠ old ↔ some old ≠ some r.id := by
      rw [ne_eq, ne_eq, Option.some.injEq, eq_comm]
    rw [List.mem_filter, decide_eq_true_eq, hne]

theorem Sound.accepted_reservations {s : Inner} (h : s.Sound) {a : Acquire}
    (hacc : s.accepts a = true) :
    (s.apply (.enqueueWith a)).reservations = s.replacedReservations a := by
  rw [apply_accepted hacc, pump_reservations,
    enqueued_eq s a (h.sender_none ((s.accepts_iff a).mp hacc).1)]

theorem refused_reservations {s : Inner} {a : Acquire} (hacc : s.accepts a = false) :
    (s.apply (.enqueueWith a)).reservations = s.reservations := by
  rcases apply_refused hacc with e | ⟨-, e⟩ <;> rw [e]

theorem Sound.cancel_reservations {s : Inner} (h : s.Sound) (reqId : String) :
    (s.apply (.cancel reqId)).reservations = s.reservations := by
  by_cases hex : ∃ u ∈ s.tickets, u.id = reqId
  · obtain ⟨u, hu, rfl⟩ := hex
    cases hstate : u.state with
    | waiting => rw [h.apply_cancel_waiting hu hstate, pump_reservations, leaving_reservations]
    | running => rw [h.apply_cancel_running hu hstate]
  · rw [apply_cancel_absent (fun u hu e => hex ⟨u, hu, e⟩)]

theorem Sound.release_reservations {s : Inner} (h : s.Sound) (reqId : String) (reserve : Bool)
    (now : UInt64) : (s.apply (.releaseWith reqId reserve now)).reservations =
      s.heldBack reqId reserve now := by
  by_cases hin : (∃ u ∈ s.tickets, u.id = reqId) ∨ ∃ r ∈ s.reservations, r.id = reqId
  · rw [h.apply_release reserve now hin, pump_reservations, leaving_reservations]
  · obtain ⟨hticket, hres⟩ := not_or.mp hin
    have hticket : ∀ t ∈ s.tickets, t.id ≠ reqId := fun u hu e => hticket ⟨u, hu, e⟩
    have hres : ∀ r ∈ s.reservations, r.id ≠ reqId := fun r hr e => hres ⟨r, hr, e⟩
    have hfilter : s.reservations.filter (fun r => r.id ≠ reqId) = s.reservations := by
      rw [List.filter_eq_self]
      simpa using hres
    have hnone : s.tickets.filter (fun t => t.id = reqId) = [] := by
      rw [List.filter_eq_nil_iff]
      simpa using hticket
    rw [apply_release_absent reserve now hticket hres, heldBack, hfilter, hnone]
    cases reserve <;> simp

theorem mem_heldBack (s : Inner) (reqId : String) (reserve : Bool) (now : UInt64)
    (r : Reservation) : r ∈ s.heldBack reqId reserve now ↔
      (r ∈ s.reservations ∧ r.id ≠ reqId) ∨
        (reserve = true ∧ ∃ t ∈ s.tickets, t.id = reqId ∧
          r = ⟨t.id, t.lane, t.ownerWindow, now + leaseTtlMs⟩) := by
  rw [heldBack, List.mem_append, List.mem_filter]
  cases reserve with
  | false => simp
  | true =>
    simp only [decide_eq_true_eq, if_true, List.mem_map, List.mem_filter, true_and]
    constructor
    · rintro (h | ⟨t, ⟨ht, hid⟩, rfl⟩)
      · exact Or.inl h
      · exact Or.inr ⟨t, ht, hid, rfl⟩
    · rintro (h | ⟨t, ht, hid, rfl⟩)
      · exact Or.inl h
      · exact Or.inr ⟨t, ⟨ht, hid⟩, rfl⟩

theorem mem_reclaim_reservations (s : Inner) (pred : String → UInt64 → Bool) (r : Reservation) :
    r ∈ (s.reclaim pred).2.reservations ↔
      r ∈ s.reservations ∧ pred r.ownerWindow r.leaseExpiresAt = false := by
  rw [reclaim_eq]
  split
  · rw [pump_reservations, leaving_reservations, List.mem_filter]
    simp
  · rename_i hno
    constructor
    · intro hr
      refine ⟨hr, ?_⟩
      by_contra hp
      exact hno (Or.inr ⟨r, hr, by simpa using hp⟩)
    · exact And.left

/-- A call keeps the reservations it does not end. -/
theorem Sound.reservation_kept {s : Inner} (h : s.Sound) (op : Op) {r : Reservation}
    (hr : r ∈ s.reservations) (hk : op.keepsReservation r = true) :
    ∃ r' ∈ (s.apply op).reservations, r.Same r' := by
  cases op with
  | enqueueWith a =>
    have hid : a.admission.replaces ≠ some r.id := by simpa [Op.keepsReservation] using hk
    by_cases hacc : s.accepts a = true
    · rw [h.accepted_reservations hacc]
      exact ⟨r, (s.mem_replacedReservations a r).mpr ⟨hr, hid⟩, rfl⟩
    · rw [refused_reservations (by simpa using hacc)]
      exact ⟨r, hr, rfl⟩
  | cancel reqId =>
    rw [h.cancel_reservations]
    exact ⟨r, hr, rfl⟩
  | releaseWith reqId reserve now =>
    have hid : r.id ≠ reqId := by simpa [Op.keepsReservation] using hk
    rw [h.release_reservations]
    exact ⟨r, (s.mem_heldBack reqId reserve now r).mpr (Or.inl ⟨hr, hid⟩), rfl⟩
  | heartbeat reqId now => exact (s.quiet_heartbeat reqId now).reservation_kept hr
  | releaseWindow label =>
    exact ⟨r, (s.mem_reclaim_reservations _ r).mpr
      ⟨hr, by simpa [Op.keepsReservation] using hk⟩, rfl⟩
  | sweepExpiredAt now =>
    exact ⟨r, (s.mem_reclaim_reservations _ r).mpr
      ⟨hr, by simpa [Op.keepsReservation] using hk⟩, rfl⟩

/-- A reservation after a call was there before, or the call is the release that made it. -/
theorem Sound.reservation_origin {s : Inner} (h : s.Sound) (op : Op) {r' : Reservation}
    (hr' : r' ∈ (s.apply op).reservations) :
    (∃ r ∈ s.reservations, r.Same r') ∨
      ∃ reqId now, op = .releaseWith reqId true now ∧ ∃ t ∈ s.tickets, t.id = reqId ∧
        r' = ⟨t.id, t.lane, t.ownerWindow, now + leaseTtlMs⟩ := by
  cases op with
  | enqueueWith a =>
    left
    by_cases hacc : s.accepts a = true
    · rw [h.accepted_reservations hacc] at hr'
      exact ⟨r', ((s.mem_replacedReservations a r').mp hr').1, rfl⟩
    · rw [refused_reservations (by simpa using hacc)] at hr'
      exact ⟨r', hr', rfl⟩
  | cancel reqId =>
    rw [h.cancel_reservations] at hr'
    exact Or.inl ⟨r', hr', rfl⟩
  | releaseWith reqId reserve now =>
    rw [h.release_reservations] at hr'
    rcases (s.mem_heldBack reqId reserve now r').mp hr' with ⟨hr', -⟩ | ⟨hres, ht⟩
    · exact Or.inl ⟨r', hr', rfl⟩
    · subst hres
      exact Or.inr ⟨reqId, now, rfl, ht⟩
  | heartbeat reqId now => exact Or.inl ((s.quiet_heartbeat reqId now).reservation_origin hr')
  | releaseWindow label =>
    exact Or.inl ⟨r', ((s.mem_reclaim_reservations _ r').mp hr').1, rfl⟩
  | sweepExpiredAt now =>
    exact Or.inl ⟨r', ((s.mem_reclaim_reservations _ r').mp hr').1, rfl⟩

/-! ## Remembered cancellations -/

theorem enqueued_cancelledEarly (s : Inner) (a : Acquire) :
    (s.enqueued a).2.cancelledEarly = s.cancelledEarly := by
  unfold enqueued
  cases a.admission.replaces <;> exact takeSender_cancelledEarly _ _ _

theorem reclaim_cancelledEarly (s : Inner) (pred : String → UInt64 → Bool) :
    (s.reclaim pred).2.cancelledEarly = s.cancelledEarly := by
  rw [reclaim_eq]
  split
  · rw [pump_cancelledEarly, leaving_cancelledEarly]
  · rfl

/-- A remembered cancellation was remembered before, or the call is that cancel. -/
theorem Sound.early_origin {s : Inner} (h : s.Sound) (op : Op) {id : String}
    (hid : id ∈ (s.apply op).cancelledEarly) : id ∈ s.cancelledEarly ∨ op = .cancel id := by
  cases op with
  | enqueueWith a =>
    left
    by_cases hacc : s.accepts a = true
    · rw [apply_accepted hacc, pump_cancelledEarly, enqueued_cancelledEarly] at hid
      exact hid
    · rcases apply_refused (by simpa using hacc) with e | ⟨-, e⟩
      · rw [e] at hid
        exact hid
      · rw [e] at hid
        exact List.mem_of_mem_erase hid
  | cancel reqId =>
    by_cases hex : ∃ t ∈ s.tickets, t.id = reqId
    · left
      obtain ⟨t, ht, rfl⟩ := hex
      cases hstate : t.state with
      | waiting =>
        rw [h.apply_cancel_waiting ht hstate, pump_cancelledEarly, leaving_cancelledEarly] at hid
        exact hid
      | running =>
        rw [h.apply_cancel_running ht hstate] at hid
        exact hid
    · rw [apply_cancel_absent (fun t ht e => hex ⟨t, ht, e⟩)] at hid
      have hmem := List.mem_of_mem_drop hid
      rw [List.mem_append, List.mem_singleton] at hmem
      exact hmem.imp_right (fun e => by rw [e])
  | releaseWith reqId reserve now =>
    left
    by_cases hin : (∃ t ∈ s.tickets, t.id = reqId) ∨ ∃ r ∈ s.reservations, r.id = reqId
    · rw [h.apply_release reserve now hin, pump_cancelledEarly, leaving_cancelledEarly] at hid
      exact hid
    · obtain ⟨hticket, hres⟩ := not_or.mp hin
      rw [apply_release_absent reserve now (fun t ht e => hticket ⟨t, ht, e⟩)
        (fun r hr e => hres ⟨r, hr, e⟩)] at hid
      exact hid
  | heartbeat reqId now => exact Or.inl hid
  | releaseWindow label => exact Or.inl (s.reclaim_cancelledEarly _ ▸ hid)
  | sweepExpiredAt now => exact Or.inl (s.reclaim_cancelledEarly _ ▸ hid)

end Inner

end Haruspex.InferenceQueue
