import Haruspex.InferenceQueue.Survival

/-! A background ticket never starts while its lane has foreground work. A turn that hands its slot
over from request to request, through reservations, counts as such work at every moment between its
first acquire and its final release. -/
namespace Haruspex.InferenceQueue
set_option autoImplicit false

namespace Inner

/-- The step that admits a background ticket leaves its lane free of foreground work. -/
theorem Sound.background_admitted {s : Inner} (hs : s.Sound) (op : Op) {t : Ticket}
    (hadm : Admitted s (s.apply op) t) (hback : t.priority = .background) :
    (s.apply op).laneBusyForBackground t.lane = false := by
  obtain ⟨m, hm, e, u, hu, rfl⟩ := hadm.pumped hs (hs.step op)
  obtain ⟨-, -, hheld⟩ := m.gate.idle_of_started _ _ hu
  have hprio : u.priority = .background := hback
  have hlane : u.start.lane = u.lane := rfl
  have hfree : m.laneBusyForBackground u.lane = false := by
    simpa [gate, hprio] using hheld
  rw [e, pump_laneBusyForBackground, hlane]
  exact hfree

end Inner

/-! ## Turns -/

/-- `b` takes back, at the front of the lane, the slot that the request of `a` gave up. -/
structure Acquire.Follows (a b : Acquire) : Prop where
  lane : b.lane = a.lane
  windowLabel : b.windowLabel = a.windowLabel
  admission : b.admission = ⟨true, .foreground, some a.reqId⟩

/-- Each take-back of a turn follows the acquire before it. -/
def Linked : Acquire → List (UInt64 × Acquire) → Prop
  | _, [] => True
  | a, (_, b) :: rounds => a.Follows b ∧ Linked b rounds

/-- A foreground turn: the acquire it starts with, and, for each long tool, when it gave its slot
back and the acquire that took the slot back. -/
structure Turn where
  first : Acquire
  rounds : List (UInt64 × Acquire)
  foreground : first.admission.priority = .foreground
  linked : Linked first rounds
  ids_nodup : (first.reqId :: rounds.map (fun round => round.2.reqId)).Nodup

/-- What a turn sends from the time it holds the slot as `a` to its final release, which is not
counted. -/
def messagesFrom : Acquire → List (UInt64 × Acquire) → List Op
  | _, [] => []
  | a, (now, b) :: rounds =>
    .releaseWith a.reqId true now :: .enqueueWith b :: messagesFrom b rounds

namespace Turn

def ids (turn : Turn) : List String :=
  turn.first.reqId :: turn.rounds.map (fun round => round.2.reqId)

/-- No ticket and no remembered cancellation has one of the turn's ids yet. -/
def Fresh (turn : Turn) (s : Inner) : Prop :=
  (∀ t ∈ s.tickets, t.id ∉ turn.ids) ∧ ∀ id ∈ turn.ids, id ∉ s.cancelledEarly

/-- A call in state `s` that is none of the turn's messages: it names none of the turn's ids
(heartbeats may), it does not close the turn's window, and it finds no lease of the turn
expired. -/
def Other (turn : Turn) (s : Inner) : Op → Prop
  | .enqueueWith a => a.reqId ∉ turn.ids ∧ ∀ old, a.admission.replaces = some old → old ∉ turn.ids
  | .cancel reqId => reqId ∉ turn.ids
  | .releaseWith reqId _ _ => reqId ∉ turn.ids
  | .heartbeat _ _ => True
  | .releaseWindow label => label ≠ turn.first.windowLabel
  | .sweepExpiredAt now =>
    (∀ t ∈ s.tickets, t.id ∈ turn.ids → ¬ t.leaseExpiresAt < now) ∧
      ∀ r ∈ s.reservations, r.id ∈ turn.ids → ¬ r.leaseExpiresAt < now

/-- The calls `ops`, made from state `s`, are the messages in their order with other calls in
between. -/
inductive Interleaved (turn : Turn) : Inner → List Op → List Op → Prop
  | nil (s : Inner) : Interleaved turn s [] []
  | message {s : Inner} {op : Op} {messages ops : List Op}
      (h : Interleaved turn (s.apply op) messages ops) :
      Interleaved turn s (op :: messages) (op :: ops)
  | other {s : Inner} {op : Op} {messages ops : List Op} (hop : turn.Other s op)
      (h : Interleaved turn (s.apply op) messages ops) : Interleaved turn s messages (op :: ops)

/-- The requests still to be registered are new to the queue. -/
def Coming (turn : Turn) (s : Inner) (rounds : List (UInt64 × Acquire)) : Prop :=
  ∀ round ∈ rounds, round.2.reqId ∈ turn.ids ∧ (∀ t ∈ s.tickets, t.id ≠ round.2.reqId) ∧
    round.2.reqId ∉ s.cancelledEarly

/-- Where a turn stands while it has messages left: it has a foreground ticket, or it has given
that up for a reservation. -/
inductive Stands (turn : Turn) (s : Inner) : List Op → Prop
  | ticket {a : Acquire} {rounds : List (UInt64 × Acquire)} {t : Ticket} (ht : t ∈ s.tickets)
      (hsame : a.ticket.Same t) (hid : a.reqId ∈ turn.ids) (hlane : a.lane = turn.first.lane)
      (hwindow : a.windowLabel = turn.first.windowLabel)
      (hprio : a.admission.priority = .foreground) (hlinked : Linked a rounds)
      (hnodup : (a.reqId :: rounds.map (fun round => round.2.reqId)).Nodup)
      (hcoming : turn.Coming s rounds) : Stands turn s (messagesFrom a rounds)
  | reservation {a b : Acquire} {now : UInt64} {rounds : List (UInt64 × Acquire)} {r : Reservation}
      (hr : r ∈ s.reservations) (hrid : r.id = a.reqId) (hrlane : r.lane = turn.first.lane)
      (hrwindow : r.ownerWindow = turn.first.windowLabel) (hid : a.reqId ∈ turn.ids)
      (hlane : a.lane = turn.first.lane) (hwindow : a.windowLabel = turn.first.windowLabel)
      (hlinked : Linked a ((now, b) :: rounds))
      (hnodup : (a.reqId :: b.reqId :: rounds.map (fun round => round.2.reqId)).Nodup)
      (hcoming : turn.Coming s ((now, b) :: rounds)) :
      Stands turn s (.enqueueWith b :: messagesFrom b rounds)

/-! ## One call -/

theorem Coming.apply {turn : Turn} {s : Inner} (hs : s.Sound)
    {rounds : List (UInt64 × Acquire)} (h : turn.Coming s rounds) (op : Op)
    (henqueue : ∀ a, op = .enqueueWith a → ∀ round ∈ rounds, a.reqId ≠ round.2.reqId)
    (hcancel : ∀ round ∈ rounds, op ≠ .cancel round.2.reqId) : turn.Coming (s.apply op) rounds := by
  intro round hround
  obtain ⟨hin, hticket, hearly⟩ := h round hround
  refine ⟨hin, ?_, ?_⟩
  · intro t' ht' e
    rcases hs.ticket_origin op ht' with ⟨t, ht, hsame⟩ | ⟨a, rfl, -, hsame⟩
    · have hid : t'.id = t.id := by rw [hsame]
      exact hticket t ht (hid.symm.trans e)
    · have hid : t'.id = a.reqId := by
        rw [hsame]
        rfl
      exact henqueue a rfl round hround (hid.symm.trans e)
  · intro hmem
    rcases hs.early_origin op hmem with h | h
    · exact hearly h
    · exact hcancel round hround h

/-- A call of others keeps a ticket of the turn. -/
theorem Other.keepsTicket {turn : Turn} {s : Inner} {op : Op} (hop : turn.Other s op) {t : Ticket}
    (ht : t ∈ s.tickets) (hid : t.id ∈ turn.ids) (hwindow : t.ownerWindow = turn.first.windowLabel) :
    op.keepsTicket t = true := by
  have hne : ∀ reqId, reqId ∉ turn.ids → t.id ≠ reqId := by
    intro reqId hno e
    exact hno (e ▸ hid)
  cases op with
  | enqueueWith a => rfl
  | cancel reqId => simpa [Op.keepsTicket] using hne reqId hop
  | releaseWith reqId reserve now => simpa [Op.keepsTicket] using hne reqId hop
  | heartbeat reqId now => rfl
  | releaseWindow label =>
    have hop : label ≠ turn.first.windowLabel := hop
    simpa [Op.keepsTicket, hwindow] using Ne.symm hop
  | sweepExpiredAt now => simpa [Op.keepsTicket] using hop.1 t ht hid

/-- A call of others keeps a reservation of the turn. -/
theorem Other.keepsReservation {turn : Turn} {s : Inner} {op : Op} (hop : turn.Other s op)
    {r : Reservation} (hr : r ∈ s.reservations) (hid : r.id ∈ turn.ids)
    (hwindow : r.ownerWindow = turn.first.windowLabel) : op.keepsReservation r = true := by
  have hne : ∀ reqId, reqId ∉ turn.ids → r.id ≠ reqId := by
    intro reqId hno e
    exact hno (e ▸ hid)
  cases op with
  | enqueueWith a =>
    have hrep : a.admission.replaces ≠ some r.id := fun e => hop.2 r.id e hid
    simpa [Op.keepsReservation] using hrep
  | cancel reqId => rfl
  | releaseWith reqId reserve now => simpa [Op.keepsReservation] using hne reqId hop
  | heartbeat reqId now => rfl
  | releaseWindow label =>
    have hop : label ≠ turn.first.windowLabel := hop
    simpa [Op.keepsReservation, hwindow] using Ne.symm hop
  | sweepExpiredAt now => simpa [Op.keepsReservation] using hop.2 r hr hid

theorem Other.coming {turn : Turn} {s : Inner} {op : Op} (hop : turn.Other s op) (hs : s.Sound)
    {rounds : List (UInt64 × Acquire)} (h : turn.Coming s rounds) :
    turn.Coming (s.apply op) rounds := by
  refine h.apply hs op ?_ ?_
  · rintro a rfl round hround e
    exact hop.1 (e ▸ (h round hround).1)
  · rintro round hround rfl
    exact hop (h round hround).1

/-- Calls of others leave the turn where it stands. -/
theorem Stands.other {turn : Turn} {s : Inner} {op : Op} {messages : List Op} (hs : s.Sound)
    (h : turn.Stands s messages) (hop : turn.Other s op) : turn.Stands (s.apply op) messages := by
  cases h with
  | ticket ht hsame hid hlane hwindow hprio hlinked hnodup hcoming =>
    have htid := hsame.id_eq
    have howner := hsame.ownerWindow_eq
    have hkeep := hop.keepsTicket ht (htid ▸ hid) (howner.trans hwindow)
    obtain ⟨t', ht', hsame'⟩ := hs.ticket_kept op ht hkeep
    exact .ticket ht' (hsame.trans hsame') hid hlane hwindow hprio hlinked hnodup
      (hop.coming hs hcoming)
  | reservation hr hrid hrlane hrwindow hid hlane hwindow hlinked hnodup hcoming =>
    have hkeep := hop.keepsReservation hr (hrid ▸ hid) hrwindow
    obtain ⟨r', hr', hsame⟩ := hs.reservation_kept op hr hkeep
    exact .reservation hr' (hsame.id_eq.trans hrid) (hsame.lane_eq.trans hrlane)
      (hsame.ownerWindow_eq.trans hrwindow) hid hlane hwindow hlinked hnodup
      (hop.coming hs hcoming)

/-- An acquire that is new to the queue is accepted, and the turn stands on its ticket. -/
theorem Stands.enqueued {turn : Turn} {s : Inner} (hs : s.Sound) {b : Acquire}
    {rounds : List (UInt64 × Acquire)} (hnew : ∀ t ∈ s.tickets, t.id ≠ b.reqId)
    (hearly : b.reqId ∉ s.cancelledEarly) (hid : b.reqId ∈ turn.ids)
    (hlane : b.lane = turn.first.lane) (hwindow : b.windowLabel = turn.first.windowLabel)
    (hprio : b.admission.priority = .foreground) (hlinked : Linked b rounds)
    (hnodup : (b.reqId :: rounds.map (fun round => round.2.reqId)).Nodup)
    (hcoming : turn.Coming s rounds) :
    turn.Stands (s.apply (.enqueueWith b)) (messagesFrom b rounds) := by
  obtain ⟨t, ht, hsame⟩ := hs.accepted_mem ((s.accepts_iff b).mpr ⟨hnew, hearly⟩)
  refine .ticket ht hsame hid hlane hwindow hprio hlinked hnodup (hcoming.apply hs _ ?_ ?_)
  · rintro a ⟨⟩ round hround e
    exact (List.nodup_cons.mp hnodup).1 (e ▸ List.mem_map_of_mem hround)
  · intro round _ e
    cases e

/-- The turn's next message takes it from its ticket to a reservation, or back to a ticket. -/
theorem Stands.message {turn : Turn} {s : Inner} {op : Op} {messages : List Op} (hs : s.Sound)
    (h : turn.Stands s (op :: messages)) : turn.Stands (s.apply op) messages := by
  generalize hall : op :: messages = all at h
  cases h with
  | @ticket a rounds t ht hsame hid hlane hwindow hprio hlinked hnodup hcoming =>
    cases rounds with
    | nil => cases hall
    | cons round rounds =>
      obtain ⟨now, b⟩ := round
      cases hall
      have hheld : (⟨t.id, t.lane, t.ownerWindow, now + leaseTtlMs⟩ : Reservation) ∈
          (s.apply (.releaseWith a.reqId true now)).reservations := by
        rw [hs.release_reservations]
        exact (s.mem_heldBack _ _ _ _).mpr (Or.inr ⟨rfl, t, ht, hsame.id_eq, rfl⟩)
      refine .reservation hheld hsame.id_eq (hsame.lane_eq.trans hlane)
        (hsame.ownerWindow_eq.trans hwindow) hid hlane hwindow hlinked hnodup
        (hcoming.apply hs _ ?_ ?_)
      · intro a e
        cases e
      · intro round _ e
        cases e
  | @reservation a b now rounds r hr hrid hrlane hrwindow hid hlane hwindow hlinked hnodup
      hcoming =>
    cases hall
    obtain ⟨hfollows, hlinked⟩ := hlinked
    obtain ⟨hbid, hnew, hearly⟩ := hcoming (now, b) List.mem_cons_self
    refine .enqueued hs hnew hearly hbid (hfollows.lane.trans hlane)
      (hfollows.windowLabel.trans hwindow) (by rw [hfollows.admission]) hlinked
      (List.nodup_cons.mp hnodup).2 ?_
    intro round hround
    exact hcoming round (List.mem_cons_of_mem _ hround)

/-- Wherever a turn stands, its lane is closed to background tickets. -/
theorem Stands.busy {turn : Turn} {s : Inner} {messages : List Op} (h : turn.Stands s messages) :
    s.laneBusyForBackground turn.first.lane = true := by
  rw [Inner.laneBusyForBackground_iff]
  cases h with
  | @ticket a rounds t ht hsame hid hlane hwindow hprio hlinked hnodup hcoming =>
    exact Or.inl ⟨t, ht, hsame.lane_eq.trans hlane, hsame.priority_eq.trans hprio⟩
  | @reservation a b now rounds r hr hrid hrlane hrwindow hid hlane hwindow hlinked hnodup
      hcoming => exact Or.inr ⟨r, hr, hrlane⟩

theorem Fresh.stands {turn : Turn} {s : Inner} (hs : s.Sound) (h : turn.Fresh s) :
    turn.Stands (s.apply (.enqueueWith turn.first)) (messagesFrom turn.first turn.rounds) := by
  have hfirst : turn.first.reqId ∈ turn.ids := List.mem_cons_self
  refine .enqueued hs (fun t ht e => h.1 t ht (e ▸ hfirst)) (h.2 _ hfirst) hfirst rfl rfl
    turn.foreground turn.linked turn.ids_nodup ?_
  intro round hround
  have hid : round.2.reqId ∈ turn.ids := List.mem_cons_of_mem _ (List.mem_map_of_mem hround)
  exact ⟨hid, fun t ht e => h.1 t ht (e ▸ hid), h.2 _ hid⟩

/-! ## The whole turn -/

/-- The lane stays closed after every call of an interleaving. -/
theorem Interleaved.busy {turn : Turn} {s : Inner} {messages ops : List Op}
    (hops : turn.Interleaved s messages ops) (hs : s.Sound) (h : turn.Stands s messages)
    {pre post : List Op} {op : Op} (hsplit : ops = pre ++ op :: post) :
    ((pre ++ [op]).foldl Inner.apply s).laneBusyForBackground turn.first.lane = true := by
  induction hops generalizing pre with
  | nil s =>
    have := congrArg List.length hsplit
    simp at this
  | @message s op' messages ops _ ih =>
    have hafter := h.message hs
    cases pre with
    | nil =>
      cases hsplit
      exact hafter.busy
    | cons op'' pre =>
      cases hsplit
      exact ih (hs.apply _) hafter rfl
  | @other s op' messages ops hop _ ih =>
    have hafter := h.other hs hop
    cases pre with
    | nil =>
      cases hsplit
      exact hafter.busy
    | cons op'' pre =>
      cases hsplit
      exact ih (hs.apply _) hafter rfl

end Turn

/-- A background ticket is admitted only into a lane without foreground work; and while a turn's
messages are processed in order, whatever calls come in between, none is admitted to its lane. -/
theorem background_gives_way :
    (∀ ops op t, Inner.Admitted (run ops) (run (ops ++ [op])) t → t.priority = .background →
      (∀ u ∈ (run (ops ++ [op])).tickets, u.lane = t.lane → u.priority ≠ .foreground) ∧
        ∀ r ∈ (run (ops ++ [op])).reservations, r.lane ≠ t.lane) ∧
    ∀ (turn : Turn) (before ops : List Op), turn.Fresh (run before) →
      turn.Interleaved (run (before ++ [.enqueueWith turn.first]))
        (messagesFrom turn.first turn.rounds) ops →
      ∀ pre op post, Op.enqueueWith turn.first :: ops = pre ++ op :: post →
        ∀ t, Inner.Admitted (run (before ++ pre)) (run (before ++ pre ++ [op])) t →
          t.priority = .background → t.lane ≠ turn.first.lane := by
  constructor
  · intro ops op t hadm hback
    rw [run_concat] at hadm ⊢
    have hfree := (run_sound ops).background_admitted op hadm hback
    have hno := mt (Inner.laneBusyForBackground_iff _ _).mpr (by rw [hfree]; decide)
    obtain ⟨hticket, hres⟩ := not_or.mp hno
    exact ⟨fun u hu hlane hprio => hticket ⟨u, hu, hlane, hprio⟩, fun r hr hlane => hres ⟨r, hr, hlane⟩⟩
  · intro turn before ops hfresh hops pre op post hsplit t hadm hback hlane
    have hstands := hfresh.stands (run_sound before)
    rw [run_concat] at hops hadm
    have hfree := (run_sound (before ++ pre)).background_admitted op hadm hback
    have hbusy : ((run (before ++ pre)).apply op).laneBusyForBackground turn.first.lane = true := by
      rw [run_append]
      cases pre with
      | nil =>
        cases hsplit
        exact hstands.busy
      | cons first pre =>
        cases hsplit
        have h := hops.busy ((run_sound before).apply _) hstands rfl
        rw [List.foldl_append] at h
        exact h
    rw [hlane, hbusy] at hfree
    cases hfree

/-- A chat turn that gives its slot back once while a long tool runs. -/
def chatTurn : Turn where
  first := ⟨"chat-1", "", "local", some 1, "main", {}, 0⟩
  rounds := [(5, ⟨"chat-2", "", "local", some 1, "main", ⟨true, .foreground, some "chat-1"⟩, 9⟩)]
  foreground := rfl
  linked := ⟨⟨rfl, rfl, rfl⟩, trivial⟩
  ids_nodup := by decide

/-- A card job that asks for the lane while the chat turn's tool runs. -/
def cardJob : Acquire := ⟨"card", "", "local", some 1, "home", ⟨false, .background, none⟩, 7⟩

theorem background_gives_way_chatTurn :
    chatTurn.Fresh (run []) ∧ ∀ pre op post,
      [.enqueueWith chatTurn.first, .releaseWith "chat-1" true 5, .enqueueWith cardJob,
        .sweepExpiredAt 8, .enqueueWith chatTurn.rounds[0].2] = pre ++ op :: post →
      ∀ t, Inner.Admitted (run pre) (run (pre ++ [op])) t → t.priority = .background →
        t.lane ≠ "local" := by
  have hfresh : chatTurn.Fresh (run []) := by
    constructor
    · intro t ht
      cases ht
    · intro id _ hid
      cases hid
  refine ⟨hfresh, background_gives_way.2 chatTurn [] _ hfresh ?_⟩
  refine .message (.other ⟨by decide, by decide⟩ (.other ⟨by decide, by decide⟩ (.message (.nil _))))

end Haruspex.InferenceQueue
