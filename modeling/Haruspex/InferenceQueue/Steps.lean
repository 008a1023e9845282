import Haruspex.InferenceQueue.Pump
import Haruspex.InferenceQueue.Sound

/-! What one call does to a sound queue. Every call is one of three: it changes nothing but leases
and remembered cancellations, it puts one new ticket in and pumps, or it takes tickets out,
replaces the reservations and pumps. From this the queue's invariant follows once for all calls. -/
namespace Haruspex.InferenceQueue
set_option autoImplicit false

/-! ## List facts -/

theorem filter_eq_singleton {α β : Type} [DecidableEq β] (f : α → β) (l : List α) {a : α}
    (hnd : (l.map f).Nodup) (ha : a ∈ l) : l.filter (fun b => f b = f a) = [a] := by
  induction l with
  | nil => cases ha
  | cons b bs ih =>
    obtain ⟨hb, hbs⟩ := List.nodup_cons.mp hnd
    rcases List.mem_cons.mp ha with rfl | ha
    · have hrest : bs.filter (fun b => f b = f a) = [] := by
        rw [List.filter_eq_nil_iff]
        intro c hc hfc
        have e : f c = f a := by simpa using hfc
        exact hb (e ▸ List.mem_map_of_mem hc)
      rw [List.filter_cons_of_pos (by simp), hrest]
    · have hne : f b ≠ f a := fun e => hb (e ▸ List.mem_map_of_mem ha)
      rw [List.filter_cons_of_neg (by simpa using hne), ih hbs ha]

/-- Erasing the first match is erasing by key, when the keys are distinct. -/
theorem eraseP_eq_filter {α β : Type} [DecidableEq β] (f : α → β) (p : α → Bool) (l : List α)
    {a : α} (hnd : (l.map f).Nodup) (ha : a ∈ l) (hp : p a = true)
    (hkey : ∀ b ∈ l, p b = true → f b = f a) : l.eraseP p = l.filter (fun b => f b ≠ f a) := by
  induction l with
  | nil => cases ha
  | cons b bs ih =>
    obtain ⟨hb, hbs⟩ := List.nodup_cons.mp hnd
    by_cases hpb : p b = true
    · have e := hkey b List.mem_cons_self hpb
      have hrest : bs.filter (fun b => f b ≠ f a) = bs := by
        rw [List.filter_eq_self]
        intro c hc
        have hne : f c ≠ f b := fun e' => hb (e' ▸ List.mem_map_of_mem hc)
        simpa [← e] using hne
      rw [List.eraseP_cons_of_pos hpb, List.filter_cons_of_neg (by simpa using e), hrest]
    · have hab : a ≠ b := by
        rintro rfl
        exact hpb hp
      have ha : a ∈ bs := (List.mem_cons.mp ha).resolve_left hab
      have hne : f b ≠ f a := fun e => hb (e ▸ List.mem_map_of_mem ha)
      rw [List.eraseP_cons_of_neg hpb, List.filter_cons_of_pos (by simpa using hne),
        ih hbs ha (fun c hc => hkey c (List.mem_cons_of_mem _ hc))]

namespace Inner

/-! ## Taking tickets out -/

/-- The state with the tickets that fail `keep` gone, their senders dropped, and `rs` for the
reservations. -/
def leaving (s : Inner) (keep : Ticket → Bool) (rs : List Reservation) : Inner :=
  { s with tickets := s.tickets.filter keep, reservations := rs }.takeSenders
    ((s.tickets.filter (fun t => !keep t)).map Ticket.id) .closed

@[simp] theorem leaving_tickets (s : Inner) (keep : Ticket → Bool) (rs : List Reservation) :
    (s.leaving keep rs).tickets = s.tickets.filter keep := takeSenders_tickets _ _ _

@[simp] theorem leaving_reservations (s : Inner) (keep : Ticket → Bool) (rs : List Reservation) :
    (s.leaving keep rs).reservations = rs := takeSenders_reservations _ _ _

@[simp] theorem leaving_laneCapacity (s : Inner) (keep : Ticket → Bool) (rs : List Reservation) :
    (s.leaving keep rs).laneCapacity = s.laneCapacity := takeSenders_laneCapacity _ _ _

@[simp] theorem leaving_cancelledEarly (s : Inner) (keep : Ticket → Bool) (rs : List Reservation) :
    (s.leaving keep rs).cancelledEarly = s.cancelledEarly := takeSenders_cancelledEarly _ _ _

theorem leaving_senders (s : Inner) (keep : Ticket → Bool) (rs : List Reservation) (id : String) :
    (s.leaving keep rs).senders id =
      if id ∈ (s.tickets.filter (fun t => !keep t)).map Ticket.id then none else s.senders id :=
  takeSenders_senders _ _ _ _

theorem leaving_true (s : Inner) (keep : Ticket → Bool) (rs : List Reservation)
    (h : ∀ t ∈ s.tickets, keep t = true) : s.leaving keep rs = { s with reservations := rs } := by
  have hkeep : s.tickets.filter keep = s.tickets := List.filter_eq_self.mpr h
  have hgone : s.tickets.filter (fun t => !keep t) = [] := by
    rw [List.filter_eq_nil_iff]
    intro t ht
    simp [h t ht]
  rw [leaving, hkeep, hgone]
  rfl

theorem Sound.mem_gone {s : Inner} (h : s.Sound) (keep : Ticket → Bool) {t : Ticket}
    (ht : t ∈ s.tickets) :
    t.id ∈ (s.tickets.filter (fun t => !keep t)).map Ticket.id ↔ keep t = false := by
  constructor
  · intro hid
    obtain ⟨u, hu, e⟩ := List.mem_map.mp hid
    obtain ⟨hu, hno⟩ := List.mem_filter.mp hu
    rw [← h.eq_of_id hu ht e]
    simpa using hno
  · intro hno
    exact List.mem_map_of_mem (List.mem_filter.mpr ⟨ht, by simp [hno]⟩)

theorem Sound.leaving {s : Inner} (h : s.Sound) (keep : Ticket → Bool) (rs : List Reservation) :
    (s.leaving keep rs).Sound := by
  refine ⟨?_, ?_, ?_⟩
  · rw [leaving_tickets]
    exact h.ids_nodup.sublist (List.filter_sublist.map _)
  · intro id
    rw [leaving_senders, leaving_tickets]
    constructor
    · intro hsome
      split at hsome
      · cases hsome
      · rename_i hid
        obtain ⟨t, ht, rfl, hwait⟩ := (h.sender_iff id).mp hsome
        have hk : keep t = true := by
          rw [h.mem_gone keep ht] at hid
          simpa using hid
        exact ⟨t, List.mem_filter.mpr ⟨ht, hk⟩, rfl, hwait⟩
    · rintro ⟨t, ht, rfl, hwait⟩
      obtain ⟨ht, hk⟩ := List.mem_filter.mp ht
      have hno : ¬ t.id ∈ (s.tickets.filter (fun t => !keep t)).map Ticket.id := by
        rw [h.mem_gone keep ht, hk]
        decide
      rw [if_neg hno]
      exact (h.sender_iff t.id).mpr ⟨t, ht, rfl, hwait⟩
  · refine Wired.takeSenders ?_ _ (fun e => by cases e)
    exact h.wired.of_eq rfl rfl

/-- One ticket removed by its id, and its sender. -/
theorem Sound.erase_eq_leaving {s : Inner} (h : s.Sound) (p : Ticket → Bool)
    (rs : List Reservation) {t : Ticket} (ht : t ∈ s.tickets) (hp : p t = true)
    (hkey : ∀ u ∈ s.tickets, p u = true → u.id = t.id) :
    { s with tickets := s.tickets.eraseP p, reservations := rs }.dropSender t.id =
      s.leaving (fun u => u.id ≠ t.id) rs := by
  have hgone : s.tickets.filter (fun u => !decide (u.id ≠ t.id)) = [t] := by
    have e : (fun u : Ticket => !decide (u.id ≠ t.id)) = fun u => decide (u.id = t.id) := by
      funext u
      simp
    rw [e]
    exact filter_eq_singleton Ticket.id s.tickets h.ids_nodup ht
  rw [Inner.leaving, hgone, eraseP_eq_filter Ticket.id p s.tickets h.ids_nodup ht hp hkey]
  rfl

/-! ## Leases -/

/-- `s'` is `s` but for leases and the cancellations remembered. -/
structure Quiet (s s' : Inner) : Prop where
  tickets : List.Forall₂
    (fun t t' => t' = { t with leaseExpiresAt := t'.leaseExpiresAt }) s.tickets s'.tickets
  reservations : List.Forall₂
    (fun r r' => r' = { r with leaseExpiresAt := r'.leaseExpiresAt }) s.reservations s'.reservations
  senders : s'.senders = s.senders
  laneCapacity : s'.laneCapacity = s.laneCapacity
  oneshots : s'.oneshots = s.oneshots

theorem quiet_cancelledEarly (s : Inner) (ids : List String) :
    s.Quiet { s with cancelledEarly := ids } :=
  ⟨List.forall₂_same.mpr (fun _ _ => rfl), List.forall₂_same.mpr (fun _ _ => rfl), rfl, rfl, rfl⟩

theorem quiet_refl (s : Inner) : s.Quiet s := s.quiet_cancelledEarly s.cancelledEarly

theorem forall₂_updateFirst {α : Type} {R : α → α → Prop} (p : α → Bool) (f : α → α) (l : List α)
    (hrefl : ∀ a ∈ l, R a a) (hf : ∀ a ∈ l, R a (f a)) : List.Forall₂ R l (updateFirst p f l) := by
  induction l with
  | nil => exact List.Forall₂.nil
  | cons a as ih =>
    rw [updateFirst]
    split
    · exact List.Forall₂.cons (hf a List.mem_cons_self)
        (List.forall₂_same.mpr (fun b hb => hrefl b (List.mem_cons_of_mem _ hb)))
    · exact List.Forall₂.cons (hrefl a List.mem_cons_self)
        (ih (fun b hb => hrefl b (List.mem_cons_of_mem _ hb))
          (fun b hb => hf b (List.mem_cons_of_mem _ hb)))

theorem quiet_heartbeat (s : Inner) (reqId : String) (now : UInt64) :
    s.Quiet (s.heartbeat reqId now) :=
  ⟨forall₂_updateFirst _ _ _ (fun _ _ => rfl) (fun _ _ => rfl),
    forall₂_updateFirst _ _ _ (fun _ _ => rfl) (fun _ _ => rfl), rfl, rfl, rfl⟩

/-- Whatever a lease does not enter is the same on both sides of a quiet call. -/
theorem Quiet.map_eq {s s' : Inner} (h : s.Quiet s') {β : Type} (f : Ticket → β)
    (hf : ∀ t lease, f { t with leaseExpiresAt := lease } = f t) :
    s'.tickets.map f = s.tickets.map f := by
  have htickets := h.tickets
  generalize s.tickets = ts at htickets
  generalize s'.tickets = ts' at htickets
  induction htickets with
  | nil => rfl
  | cons hab _ ih => rw [List.map_cons, List.map_cons, ih, hab, hf]

theorem Quiet.reservations_map_eq {s s' : Inner} (h : s.Quiet s') {β : Type} (f : Reservation → β)
    (hf : ∀ r lease, f { r with leaseExpiresAt := lease } = f r) :
    s'.reservations.map f = s.reservations.map f := by
  have hrs := h.reservations
  generalize s.reservations = rs at hrs
  generalize s'.reservations = rs' at hrs
  induction hrs with
  | nil => rfl
  | cons hab _ ih => rw [List.map_cons, List.map_cons, ih, hab, hf]

/-- A ticket after a quiet call was there before, with another lease. -/
theorem Quiet.mem {s s' : Inner} (h : s.Quiet s') {t' : Ticket} (ht' : t' ∈ s'.tickets) :
    ∃ t ∈ s.tickets, t' = { t with leaseExpiresAt := t'.leaseExpiresAt } := by
  obtain ⟨i, hi, rfl⟩ := List.mem_iff_getElem.mp ht'
  have hlen := h.tickets.length_eq
  have hi' : i < s.tickets.length := by omega
  exact ⟨s.tickets[i], List.getElem_mem _, h.tickets.get hi' hi⟩

theorem Quiet.mem_after {s s' : Inner} (h : s.Quiet s') {t : Ticket} (ht : t ∈ s.tickets) :
    ∃ t' ∈ s'.tickets, t' = { t with leaseExpiresAt := t'.leaseExpiresAt } := by
  obtain ⟨i, hi, rfl⟩ := List.mem_iff_getElem.mp ht
  have hlen := h.tickets.length_eq
  have hi' : i < s'.tickets.length := by omega
  exact ⟨s'.tickets[i], List.getElem_mem _, h.tickets.get hi hi'⟩

theorem Quiet.sound {s s' : Inner} (hq : s.Quiet s') (h : s.Sound) : s'.Sound := by
  refine ⟨?_, ?_, h.wired.of_eq hq.senders hq.oneshots⟩
  · rw [hq.map_eq Ticket.id (fun _ _ => rfl)]
    exact h.ids_nodup
  · intro id
    rw [hq.senders, h.sender_iff]
    constructor
    · rintro ⟨t, ht, rfl, hwait⟩
      obtain ⟨t', ht', e⟩ := hq.mem_after ht
      exact ⟨t', ht', by rw [e], by rw [e]; exact hwait⟩
    · rintro ⟨t', ht', rfl, hwait⟩
      obtain ⟨t, ht, e⟩ := hq.mem ht'
      exact ⟨t, ht, by rw [e], by rw [e] at hwait; exact hwait⟩

/-! ## Putting a ticket in -/

theorem enqueued_rx (s : Inner) (a : Acquire) : (s.enqueued a).1 = s.oneshots.length := by
  unfold enqueued
  cases a.admission.replaces <;> rfl

/-- Where an acquire's ticket goes. -/
def slot (s : Inner) (a : Acquire) : Option ℕ :=
  if a.admission.front then
    s.tickets.findIdx? (fun t => t.lane = a.lane ∧ t.state = .waiting ∧ t.front = false)
  else none

/-- The reservations after an acquire that replaces one. -/
def replacedReservations (s : Inner) (a : Acquire) : List Reservation :=
  match a.admission.replaces with
  | some old => s.reservations.filter (fun r => r.id ≠ old)
  | none => s.reservations

/-- The state an accepted acquire builds, field by field. -/
theorem enqueued_eq (s : Inner) (a : Acquire) (hnone : s.senders a.reqId = none) :
    (s.enqueued a).2 =
      { tickets := insertTicket s.tickets (s.slot a) a.ticket
        senders := Function.update s.senders a.reqId (some s.oneshots.length)
        laneCapacity :=
          Function.update s.laneCapacity a.lane (some (suppliedCapacity a.maxParallel))
        cancelledEarly := s.cancelledEarly
        reservations := s.replacedReservations a
        oneshots := s.oneshots ++ [.pending] } := by
  have hdrop : ∀ caps rs os, { s with laneCapacity := caps, reservations := rs, oneshots := os
      }.dropSender a.reqId = { s with laneCapacity := caps, reservations := rs, oneshots := os } :=
    fun caps rs os => dropSender_of_none hnone
  unfold enqueued replacedReservations
  cases a.admission.replaces with
  | none =>
    dsimp only [channel, insertSender]
    rw [hdrop]
    rfl
  | some old =>
    dsimp only [channel, insertSender]
    rw [hdrop]
    rfl

/-- The ticket goes in at one place: for a `front` ticket before the lane's first ordinary waiter,
else at the end. -/
theorem insertTicket_split (s : Inner) (a : Acquire) :
    ∃ pre post, s.tickets = pre ++ post ∧
      insertTicket s.tickets (s.slot a) a.ticket = pre ++ a.ticket :: post ∧
      (a.admission.front = false → post = []) ∧
      (a.admission.front = true →
        (∀ t ∈ pre, ¬ (t.lane = a.lane ∧ t.state = .waiting ∧ t.front = false)) ∧
        ∀ t ts, post = t :: ts → t.lane = a.lane ∧ t.state = .waiting ∧ t.front = false) := by
  unfold slot
  by_cases hfront : a.admission.front = true
  · rw [if_pos hfront]
    cases hidx : s.tickets.findIdx? (fun t => t.lane = a.lane ∧ t.state = .waiting ∧
        t.front = false) with
    | none =>
      rw [List.findIdx?_eq_none_iff] at hidx
      refine ⟨s.tickets, [], by simp, rfl, fun _ => rfl, fun _ => ⟨?_, by simp⟩⟩
      intro t ht
      simpa using hidx t ht
    | some i =>
      rw [List.findIdx?_eq_some_iff_getElem] at hidx
      obtain ⟨hi, hat, hbefore⟩ := hidx
      refine ⟨s.tickets.take i, s.tickets.drop i, (List.take_append_drop i _).symm, rfl,
        fun h => absurd hfront (by simp [h]), fun _ => ⟨?_, ?_⟩⟩
      · intro t ht
        obtain ⟨j, hj, e⟩ := List.mem_iff_getElem.mp ht
        rw [List.length_take] at hj
        rw [List.getElem_take] at e
        have := hbefore j (by omega)
        rw [e] at this
        simpa using this
      · intro t ts e
        have hget : t = s.tickets[i] := by
          have h := List.drop_eq_getElem_cons hi
          rw [e] at h
          exact (List.cons.inj h).1
        rw [hget]
        simpa using hat
  · rw [if_neg hfront]
    exact ⟨s.tickets, [], by simp, rfl, fun _ => rfl, fun h => absurd h hfront⟩

theorem Sound.enqueued {s : Inner} (h : s.Sound) (a : Acquire)
    (hfresh : ∀ t ∈ s.tickets, t.id ≠ a.reqId) : (s.enqueued a).2.Sound := by
  have hnone := h.sender_none hfresh
  obtain ⟨pre, post, hsplit, hins, -, -⟩ := s.insertTicket_split a
  have hmem : ∀ t, t ∈ pre ++ a.ticket :: post ↔ t = a.ticket ∨ t ∈ s.tickets := by
    intro t
    rw [hsplit]
    simp only [List.mem_append, List.mem_cons]
    tauto
  rw [enqueued_eq s a hnone]
  refine ⟨?_, ?_, h.wired.insertSender hnone rfl rfl⟩
  · dsimp only
    rw [hins, List.map_append, List.map_cons, List.nodup_middle, ← List.map_append, ← hsplit,
      List.nodup_cons]
    refine ⟨?_, h.ids_nodup⟩
    intro hin
    obtain ⟨t, ht, e⟩ := List.mem_map.mp hin
    exact hfresh t ht e
  · intro id
    dsimp only
    rw [hins]
    by_cases e : id = a.reqId
    · subst e
      have hex : ∃ t ∈ pre ++ a.ticket :: post, t.id = a.reqId ∧ t.state = .waiting :=
        ⟨a.ticket, (hmem _).mpr (Or.inl rfl), rfl, rfl⟩
      simpa using hex
    · rw [Function.update_of_ne e, h.sender_iff]
      constructor
      · rintro ⟨t, ht, hid, hwait⟩
        exact ⟨t, (hmem t).mpr (Or.inr ht), hid, hwait⟩
      · rintro ⟨t, ht, hid, hwait⟩
        rcases (hmem t).mp ht with rfl | ht
        · exact absurd hid.symm e
        · exact ⟨t, ht, hid, hwait⟩

/-! ## The calls one by one -/

/-- Whether an acquire gets past both refusals. -/
def accepts (s : Inner) (a : Acquire) : Bool :=
  !s.tickets.any (fun t => t.id = a.reqId) && !decide (a.reqId ∈ s.cancelledEarly)

theorem accepts_iff (s : Inner) (a : Acquire) : s.accepts a = true ↔
    (∀ t ∈ s.tickets, t.id ≠ a.reqId) ∧ a.reqId ∉ s.cancelledEarly := by
  simp [accepts]

theorem apply_accepted {s : Inner} {a : Acquire} (h : s.accepts a = true) :
    s.apply (.enqueueWith a) = (s.enqueued a).2.pump := by
  obtain ⟨hfresh, hearly⟩ := (s.accepts_iff a).mp h
  have hany : s.tickets.any (fun t => t.id = a.reqId) = false := by simpa using hfresh
  rw [apply, enqueueWith, hany, if_neg (by decide), if_neg hearly]

theorem enqueueWith_result (s : Inner) (a : Acquire) : (s.enqueueWith a).1.toOption =
    if s.accepts a then some s.oneshots.length else none := by
  rw [enqueueWith, accepts]
  by_cases hany : s.tickets.any (fun t => t.id = a.reqId) = true
  · rw [if_pos hany, hany]
    rfl
  · rw [if_neg hany]
    by_cases hearly : a.reqId ∈ s.cancelledEarly
    · rw [if_pos hearly]
      simp [hearly]
      rfl
    · rw [if_neg hearly]
      simp [hany, hearly, ← enqueued_rx s a]
      rfl

theorem apply_refused {s : Inner} {a : Acquire} (h : s.accepts a = false) :
    s.apply (.enqueueWith a) = s ∨
      (a.reqId ∈ s.cancelledEarly ∧ s.apply (.enqueueWith a) =
        { s with cancelledEarly := s.cancelledEarly.erase a.reqId }) := by
  rw [apply, enqueueWith]
  by_cases hany : s.tickets.any (fun t => t.id = a.reqId) = true
  · rw [if_pos hany]
    exact Or.inl rfl
  · rw [if_neg hany]
    by_cases hearly : a.reqId ∈ s.cancelledEarly
    · rw [if_pos hearly]
      exact Or.inr ⟨hearly, rfl⟩
    · have hany : s.tickets.any (fun t => t.id = a.reqId) = false := by simpa using hany
      rw [accepts, hany, decide_eq_false hearly] at h
      cases h

/-- The cancellations remembered after one more. -/
def rememberedEarly (s : Inner) (reqId : String) : List String :=
  (s.cancelledEarly ++ [reqId]).drop ((s.cancelledEarly ++ [reqId]).length - earlyCancelCap)

theorem apply_cancel_absent {s : Inner} {reqId : String} (h : ∀ t ∈ s.tickets, t.id ≠ reqId) :
    s.apply (.cancel reqId) = { s with cancelledEarly := s.rememberedEarly reqId } := by
  have hany : s.tickets.any (fun t => t.id = reqId) = false := by simpa using h
  rw [apply, cancel, hany]
  rfl

theorem Sound.apply_cancel_waiting {s : Inner} (h : s.Sound) {t : Ticket} (ht : t ∈ s.tickets)
    (hwait : t.state = .waiting) : s.apply (.cancel t.id) =
      (s.leaving (fun u => u.id ≠ t.id) s.reservations).pump := by
  have hany : s.tickets.any (fun u => u.id = t.id) = true :=
    List.any_eq_true.mpr ⟨t, ht, by simp⟩
  have hfind : s.tickets.find? (fun u => u.id = t.id ∧ u.state = .waiting) = some t := by
    cases hf : s.tickets.find? (fun u => u.id = t.id ∧ u.state = .waiting) with
    | none =>
      have := List.find?_eq_none.mp hf t ht
      simp [hwait] at this
    | some u =>
      have hp : u.id = t.id ∧ u.state = .waiting := by simpa using List.find?_some hf
      rw [h.eq_of_id (List.mem_of_find?_eq_some hf) ht hp.1]
  rw [apply, cancel, hany, if_pos rfl, removeTicketWhere, hfind]
  dsimp only
  rw [← h.erase_eq_leaving (fun u => u.id = t.id ∧ u.state = .waiting) s.reservations ht
    (by simp [hwait]) (fun u _ hp => by simp at hp; exact hp.1)]

theorem Sound.apply_cancel_running {s : Inner} (h : s.Sound) {t : Ticket} (ht : t ∈ s.tickets)
    (hrun : t.state = .running) : s.apply (.cancel t.id) = s := by
  have hany : s.tickets.any (fun u => u.id = t.id) = true :=
    List.any_eq_true.mpr ⟨t, ht, by simp⟩
  have hfind : s.tickets.find? (fun u => u.id = t.id ∧ u.state = .waiting) = none := by
    rw [List.find?_eq_none]
    intro u hu hp
    have hp : u.id = t.id ∧ u.state = .waiting := by simpa using hp
    rw [h.eq_of_id hu ht hp.1, hrun] at hp
    cases hp.2
  rw [apply, cancel, hany, if_pos rfl, removeTicketWhere, hfind]

/-- The reservations after a release: the one under its id goes, and with `reserve` a ticket that
was there leaves one. -/
def heldBack (s : Inner) (reqId : String) (reserve : Bool) (now : UInt64) : List Reservation :=
  s.reservations.filter (fun r => r.id ≠ reqId) ++
    if reserve then
      (s.tickets.filter (fun t => t.id = reqId)).map
        (fun t => ⟨t.id, t.lane, t.ownerWindow, now + leaseTtlMs⟩)
    else []

theorem Sound.apply_release {s : Inner} (h : s.Sound) {reqId : String} (reserve : Bool)
    (now : UInt64)
    (hin : (∃ t ∈ s.tickets, t.id = reqId) ∨ ∃ r ∈ s.reservations, r.id = reqId) :
    s.apply (.releaseWith reqId reserve now) =
      (s.leaving (fun t => t.id ≠ reqId) (s.heldBack reqId reserve now)).pump := by
  rw [apply, releaseWith]
  by_cases hex : ∃ t ∈ s.tickets, t.id = reqId
  · obtain ⟨t, ht, rfl⟩ := hex
    have hfind : s.tickets.find? (fun u => u.id = t.id) = some t := by
      cases hf : s.tickets.find? (fun u => u.id = t.id) with
      | none =>
        have := List.find?_eq_none.mp hf t ht
        simp at this
      | some u =>
        have hp : u.id = t.id := by simpa using List.find?_some hf
        rw [h.eq_of_id (List.mem_of_find?_eq_some hf) ht hp]
    have hsingle : s.tickets.filter (fun u => u.id = t.id) = [t] :=
      filter_eq_singleton Ticket.id s.tickets h.ids_nodup ht
    have hleave := fun rs => h.erase_eq_leaving (fun u => u.id = t.id) rs ht (by simp)
      (fun u _ hp => by simpa using hp)
    have hwith : ∀ rs rs', { s.leaving (fun u => u.id ≠ t.id) rs with reservations := rs' } =
        s.leaving (fun u => u.id ≠ t.id) rs' := by
      intro rs rs'
      rw [← hleave rs, ← hleave rs', dropSender, dropSender, takeSender, takeSender]
      dsimp only
      split <;> rfl
    rw [released, hfind]
    dsimp only
    rw [hleave]
    cases reserve with
    | false => simp [heldBack]
    | true =>
      simp only [if_true, Bool.true_or, leaving_reservations, hwith, heldBack, hsingle,
        List.map_cons, List.map_nil]
  · obtain ⟨r, hr, rfl⟩ := hin.resolve_left hex
    have hno : ∀ t ∈ s.tickets, t.id ≠ r.id := fun t ht e => hex ⟨t, ht, e⟩
    have hfind : s.tickets.find? (fun u => u.id = r.id) = none := by
      rw [List.find?_eq_none]
      simpa using hno
    have hany : s.reservations.any (fun u => u.id = r.id) = true :=
      List.any_eq_true.mpr ⟨r, hr, by simp⟩
    have hfilter : s.tickets.filter (fun u => u.id = r.id) = [] := by
      rw [List.filter_eq_nil_iff]
      simpa using hno
    rw [released, hfind, leaving_true s _ _ (by simpa using hno), heldBack, hfilter, hany]
    simp

theorem apply_release_absent {s : Inner} {reqId : String} (reserve : Bool) (now : UInt64)
    (hticket : ∀ t ∈ s.tickets, t.id ≠ reqId) (hres : ∀ r ∈ s.reservations, r.id ≠ reqId) :
    s.apply (.releaseWith reqId reserve now) = s := by
  have hfind : s.tickets.find? (fun u => u.id = reqId) = none := by
    rw [List.find?_eq_none]
    simpa using hticket
  have hany : s.reservations.any (fun u => u.id = reqId) = false := by simpa using hres
  have hfilter : s.reservations.filter (fun u => u.id ≠ reqId) = s.reservations := by
    rw [List.filter_eq_self]
    simpa using hres
  rw [apply, releaseWith, released, hfind, hany, hfilter]
  rfl

/-- A window close or a sweep: everything that matches goes, and if nothing does, nothing
changes. -/
theorem reclaim_eq (s : Inner) (pred : String → UInt64 → Bool) :
    (s.reclaim pred).2 =
      if (∃ t ∈ s.tickets, pred t.ownerWindow t.leaseExpiresAt = true) ∨
          ∃ r ∈ s.reservations, pred r.ownerWindow r.leaseExpiresAt = true then
        (s.leaving (fun t => !pred t.ownerWindow t.leaseExpiresAt)
          (s.reservations.filter (fun r => !pred r.ownerWindow r.leaseExpiresAt))).pump
      else s := by
  have hfreed : ((s.reservations.filter (fun r => !pred r.ownerWindow r.leaseExpiresAt)).length !=
      s.reservations.length) = true ↔
        ∃ r ∈ s.reservations, pred r.ownerWindow r.leaseExpiresAt = true := by
    rw [bne_iff_ne, ne_eq, List.length_filter_eq_length_iff]
    simp
  rw [reclaim]
  by_cases hex : ∃ t ∈ s.tickets, pred t.ownerWindow t.leaseExpiresAt = true
  · obtain ⟨t, ht, hp⟩ := hex
    have hne : ((s.tickets.filter (fun t => pred t.ownerWindow t.leaseExpiresAt)).map
        Ticket.id).isEmpty = false := by
      rw [List.isEmpty_eq_false_iff]
      intro h
      have hmem : t ∈ s.tickets.filter (fun t => pred t.ownerWindow t.leaseExpiresAt) :=
        List.mem_filter.mpr ⟨ht, hp⟩
      rw [List.map_eq_nil_iff.mp h] at hmem
      cases hmem
    rw [if_pos (Or.inl ⟨t, ht, hp⟩), hne, leaving]
    simp only [Bool.not_not, takeSenders]
    rfl
  · have hnil : s.tickets.filter (fun t => pred t.ownerWindow t.leaseExpiresAt) = [] := by
      rw [List.filter_eq_nil_iff]
      intro t ht hp
      exact hex ⟨t, ht, hp⟩
    have hkeep : ∀ t ∈ s.tickets, (!pred t.ownerWindow t.leaseExpiresAt) = true := by
      intro t ht
      cases hp : pred t.ownerWindow t.leaseExpiresAt with
      | false => rfl
      | true => exact absurd ⟨t, ht, hp⟩ hex
    rw [hnil, leaving_true s _ _ hkeep]
    by_cases hres : ∃ r ∈ s.reservations, pred r.ownerWindow r.leaseExpiresAt = true
    · rw [if_pos (Or.inr hres)]
      simp [hfreed.mpr hres]
    · have hself : s.reservations.filter (fun r => !pred r.ownerWindow r.leaseExpiresAt) =
          s.reservations := by
        rw [List.filter_eq_self]
        intro r hr
        cases hp : pred r.ownerWindow r.leaseExpiresAt with
        | false => rfl
        | true => exact absurd ⟨r, hr, hp⟩ hres
      rw [if_neg (not_or.mpr ⟨hex, hres⟩)]
      simp [hself]

/-! ## Every call -/

/-- What a call on `s` may leave behind: `s` but for leases and remembered cancellations, the
accepted acquire's state pumped, or `s` with tickets taken out and pumped. -/
inductive Step (s : Inner) : Op → Inner → Prop
  | quiet {op : Op} {s' : Inner} (h : s.Quiet s')
      (hrefused : ∀ a, op = .enqueueWith a → s.accepts a = false) : Step s op s'
  | join {a : Acquire} (h : s.accepts a = true) : Step s (.enqueueWith a) (s.enqueued a).2.pump
  | leave {op : Op} (keep : Ticket → Bool) (rs : List Reservation)
      (hop : ∀ a, op ≠ .enqueueWith a) : Step s op (s.leaving keep rs).pump

theorem Step.of_reclaim {s : Inner} {op : Op} (pred : String → UInt64 → Bool)
    (hop : ∀ a, op ≠ .enqueueWith a) : Step s op (s.reclaim pred).2 := by
  rw [reclaim_eq]
  split
  · exact .leave _ _ hop
  · exact .quiet s.quiet_refl (fun a e => absurd e (hop a))

theorem Sound.step {s : Inner} (h : s.Sound) (op : Op) : Step s op (s.apply op) := by
  cases op with
  | enqueueWith a =>
    by_cases hacc : s.accepts a = true
    · rw [apply_accepted hacc]
      exact .join hacc
    · have hacc : s.accepts a = false := by simpa using hacc
      have hrefused : ∀ b, Op.enqueueWith a = .enqueueWith b → s.accepts b = false := by
        rintro b ⟨⟩
        exact hacc
      rcases apply_refused hacc with e | ⟨-, e⟩
      · rw [e]
        exact .quiet s.quiet_refl hrefused
      · rw [e]
        exact .quiet (s.quiet_cancelledEarly _) hrefused
  | cancel reqId =>
    by_cases hex : ∃ t ∈ s.tickets, t.id = reqId
    · obtain ⟨t, ht, rfl⟩ := hex
      cases hstate : t.state with
      | waiting =>
        rw [h.apply_cancel_waiting ht hstate]
        exact .leave _ _ (fun a e => by cases e)
      | running =>
        rw [h.apply_cancel_running ht hstate]
        exact .quiet s.quiet_refl (fun a e => by cases e)
    · rw [apply_cancel_absent (fun t ht e => hex ⟨t, ht, e⟩)]
      exact .quiet (s.quiet_cancelledEarly _) (fun a e => by cases e)
  | releaseWith reqId reserve now =>
    by_cases hin : (∃ t ∈ s.tickets, t.id = reqId) ∨ ∃ r ∈ s.reservations, r.id = reqId
    · rw [h.apply_release reserve now hin]
      exact .leave _ _ (fun a e => by cases e)
    · obtain ⟨hticket, hres⟩ := not_or.mp hin
      rw [apply_release_absent reserve now (fun t ht e => hticket ⟨t, ht, e⟩)
        (fun r hr e => hres ⟨r, hr, e⟩)]
      exact .quiet s.quiet_refl (fun a e => by cases e)
  | heartbeat reqId now => exact .quiet (s.quiet_heartbeat reqId now) (fun a e => by cases e)
  | releaseWindow label => exact .of_reclaim _ (fun a e => by cases e)
  | sweepExpiredAt now => exact .of_reclaim _ (fun a e => by cases e)

theorem Sound.apply {s : Inner} (h : s.Sound) (op : Op) : (s.apply op).Sound := by
  have hstep := h.step op
  generalize s.apply op = s' at hstep
  cases hstep with
  | quiet hq _ => exact hq.sound h
  | join hacc => exact (h.enqueued _ ((s.accepts_iff _).mp hacc).1).pump
  | leave keep rs _ => exact (h.leaving keep rs).pump

/-- The tickets of `m`, the state `pump` is called in, against those of `s`: each was there, or is
new and waits. -/
structure Staged (s m : Inner) : Prop where
  sound : m.Sound
  old_or_new : ∀ t ∈ m.tickets,
    t ∈ s.tickets ∨ (t.state = .waiting ∧ ∀ u ∈ s.tickets, u.id ≠ t.id)

theorem Sound.mem_enqueued {s : Inner} (h : s.Sound) {a : Acquire} (hacc : s.accepts a = true)
    (t : Ticket) : t ∈ (s.enqueued a).2.tickets ↔ t = a.ticket ∨ t ∈ s.tickets := by
  obtain ⟨pre, post, hsplit, hins, -, -⟩ := s.insertTicket_split a
  rw [enqueued_eq s a (h.sender_none ((s.accepts_iff a).mp hacc).1), hins, hsplit]
  simp only [List.mem_append, List.mem_cons]
  tauto

/-- A call that is not quiet pumps a state whose tickets are old or new. -/
theorem Step.quiet_or_staged {s s' : Inner} {op : Op} (hs : s.Sound) (h : Step s op s') :
    s.Quiet s' ∨ ∃ m, s.Staged m ∧ s' = m.pump := by
  cases h with
  | quiet hq _ => exact Or.inl hq
  | @join a hacc =>
    obtain ⟨hfresh, -⟩ := (s.accepts_iff a).mp hacc
    refine Or.inr ⟨_, ⟨hs.enqueued a hfresh, ?_⟩, rfl⟩
    intro t ht
    rcases (hs.mem_enqueued hacc t).mp ht with rfl | ht
    · exact Or.inr ⟨rfl, hfresh⟩
    · exact Or.inl ht
  | leave keep rs _ =>
    refine Or.inr ⟨_, ⟨hs.leaving keep rs, ?_⟩, rfl⟩
    intro t ht
    rw [leaving_tickets] at ht
    exact Or.inl (List.mem_filter.mp ht).1

/-- A call that leads from `s` to `s'` has admitted `t`: it runs, and it did not run before. -/
structure Admitted (s s' : Inner) (t : Ticket) : Prop where
  mem : t ∈ s'.tickets
  runs : t.state = .running
  idle : ∀ u ∈ s.tickets, u.id = t.id → u.state = .waiting

/-- Only `pump` admits, and it admits what it starts. -/
theorem Admitted.pumped {s s' : Inner} {op : Op} {t : Ticket} (hadm : Admitted s s' t)
    (hs : s.Sound) (h : Step s op s') :
    ∃ m, s.Staged m ∧ s' = m.pump ∧ ∃ u ∈ m.pumped, u.start = t := by
  rcases h.quiet_or_staged hs with hq | ⟨m, hm, rfl⟩
  · obtain ⟨u, hu, e⟩ := hq.mem hadm.mem
    have hrun : u.state = .running := by
      rw [← hadm.runs, e]
    rw [hadm.idle u hu (by rw [e])] at hrun
    cases hrun
  · refine ⟨m, hm, rfl, ?_⟩
    rcases (hm.sound.mem_pump t).mp hadm.mem with ⟨ht, -⟩ | h
    · have hrun := hadm.runs
      rcases hm.old_or_new t ht with hold | ⟨hwait, -⟩
      · rw [hadm.idle t hold rfl] at hrun
        cases hrun
      · rw [hwait] at hrun
        cases hrun
    · exact h

theorem Quiet.runningOn {s s' : Inner} (h : s.Quiet s') : s'.runningOn = s.runningOn := by
  funext lane
  have hmap := h.map_eq (fun t => decide (t.lane = lane ∧ t.state = .running)) (fun _ _ => rfl)
  have hcount : ∀ u : Inner, u.runningOn lane = (u.tickets.map
      (fun t => decide (t.lane = lane ∧ t.state = .running))).count true := by
    intro u
    rw [Inner.runningOn, List.count, List.countP_map]
    congr 1
    funext t
    simp
  rw [hcount, hcount, hmap]

theorem Quiet.laneBusyForBackground {s s' : Inner} (h : s.Quiet s') :
    s'.laneBusyForBackground = s.laneBusyForBackground := by
  funext lane
  have htickets := h.map_eq (fun t => decide (t.lane = lane ∧ t.priority = .foreground))
    (fun _ _ => rfl)
  have hres := h.reservations_map_eq (fun r => decide (r.lane = lane)) (fun _ _ => rfl)
  have hany : ∀ u : Inner, u.laneBusyForBackground lane =
      ((u.tickets.map (fun t => decide (t.lane = lane ∧ t.priority = .foreground))).any id ||
        (u.reservations.map (fun r => decide (r.lane = lane))).any id) := by
    intro u
    rw [Inner.laneBusyForBackground, List.any_map, List.any_map]
    rfl
  rw [hany, hany, htickets, hres]

theorem Quiet.conserved {s s' : Inner} (hq : s.Quiet s') (h : s.Conserved) : s'.Conserved := by
  intro t' ht' hwait
  obtain ⟨t, ht, e⟩ := hq.mem ht'
  have hlane : t'.lane = t.lane := by rw [e]
  have hprio : t'.priority = t.priority := by rw [e]
  have hstate : t'.state = t.state := by rw [e]
  have hcap : s'.capacity = s.capacity := by
    funext lane
    rw [capacity, capacity, hq.laneCapacity]
  rw [ReasonToWait, ← laneBusyForBackground_iff, hcap, hq.runningOn, hq.laneBusyForBackground,
    hlane, hprio, laneBusyForBackground_iff]
  exact h t ht (hstate ▸ hwait)

theorem Conserved.apply {s : Inner} (h : s.Conserved) (hs : s.Sound) (op : Op) :
    (s.apply op).Conserved := by
  have hstep := hs.step op
  generalize s.apply op = s' at hstep
  cases hstep with
  | quiet hq _ => exact hq.conserved h
  | join _ => exact pump_conserved _
  | leave keep rs _ => exact pump_conserved _

end Inner

/-! ## The queue with its invariant -/

/-- A queue state that is sound and conserved: every state the queue can be in is one. -/
structure Queue where
  inner : Inner
  sound : inner.Sound
  conserved : inner.Conserved

namespace Queue

def empty : Queue := ⟨Inner.empty, Inner.empty_sound, fun _ ht _ => by cases ht⟩

def apply (q : Queue) (op : Op) : Queue :=
  ⟨q.inner.apply op, q.sound.apply op, q.conserved.apply q.sound op⟩

def run (ops : List Op) : Queue := ops.foldl apply empty

/-- The queue with its invariant runs as the queue does. -/
theorem run_inner (ops : List Op) : (run ops).inner = InferenceQueue.run ops := by
  have hfold : ∀ (ops : List Op) (q : Queue),
      (ops.foldl apply q).inner = ops.foldl Inner.apply q.inner := by
    intro ops
    induction ops with
    | nil => exact fun _ => rfl
    | cons op ops ih => exact fun q => ih (q.apply op)
  exact hfold ops empty

end Queue

theorem run_append (ops ops' : List Op) : run (ops ++ ops') = ops'.foldl Inner.apply (run ops) :=
  List.foldl_append

theorem run_concat (ops : List Op) (op : Op) : run (ops ++ [op]) = (run ops).apply op :=
  run_append ops [op]

theorem run_sound (ops : List Op) : (run ops).Sound := Queue.run_inner ops ▸ (Queue.run ops).sound

theorem run_conserved (ops : List Op) : (run ops).Conserved :=
  Queue.run_inner ops ▸ (Queue.run ops).conserved

/-- No lost wake-up: whatever the calls, a ticket that waits has a reason to, and one pass of
`pump` is a fixed point. -/
theorem work_conservation :
    (∀ ops, ∀ t ∈ (run ops).tickets, t.state = .waiting → (run ops).ReasonToWait t) ∧
      (∀ ops, (run ops).pump = run ops) ∧ ∀ s : Inner, s.pump.pump = s.pump :=
  ⟨run_conserved, fun ops => (run_conserved ops).pump_eq_self, Inner.pump_pump⟩

end Haruspex.InferenceQueue
