import Haruspex.SlotLender.Model

/-! When lending can lock a lane up. Every slot may end up with a turn that keeps it while one of
its calls waits for another; that is the only way, and it cannot happen while a call queues for a
slot of its own only if one slot stays with somebody else. -/
namespace Haruspex.SlotLender
open InferenceQueue
set_option autoImplicit false

/-! ## The queue under the lane's acquires and releases -/

theorem ticketIs_iff (queue : Inner) (state : TicketState) (reqId : String) :
    ticketIs queue state reqId = true ↔ ∃ t ∈ queue.tickets, t.id = reqId ∧ t.state = state := by
  simp [ticketIs]

/-- The queue holds tickets of this lane only, all of requests used before. -/
structure QueueOk (l : Lane) (used : List String) (queue : Inner) : Prop where
  sound : queue.Sound
  conserved : queue.Conserved
  used : ∀ t ∈ queue.tickets, t.id ∈ used
  lane : ∀ t ∈ queue.tickets, t.lane = l.key
  capacity : ∀ t ∈ queue.tickets, queue.capacity t.lane = l.slots
  reservations : queue.reservations = []
  early : queue.cancelledEarly = []

/-- What a call leaves of the requests used before it. -/
structure Settles (used : List String) (queue queue' : Inner) : Prop where
  waiting : ∀ id ∈ used, ticketIs queue' .waiting id = true → ticketIs queue .waiting id = true
  priority : ∀ t' ∈ queue'.tickets, t'.id ∈ used →
    ∃ t ∈ queue.tickets, t.id = t'.id ∧ t.priority = t'.priority

theorem QueueOk.settles {l : Lane} {used : List String} {queue : Inner} (h : QueueOk l used queue)
    (op : Op) (hop : ∀ a, op = .enqueueWith a → a.reqId ∉ used) :
    Settles used queue (queue.apply op) := by
  have horigin : ∀ t' ∈ (queue.apply op).tickets, t'.id ∈ used →
      ∃ t ∈ queue.tickets, t.Same t' := by
    intro t' ht' hid
    rcases h.sound.ticket_origin op ht' with ht | ⟨a, ha, -, hsame⟩
    · exact ht
    · rw [hsame.id_eq] at hid
      exact absurd hid (hop a ha)
  constructor
  · intro id hid hwait
    obtain ⟨t', ht', e, hwait'⟩ := (ticketIs_iff _ _ _).mp hwait
    obtain ⟨t, ht, hsame⟩ := horigin t' ht' (e ▸ hid)
    refine (ticketIs_iff _ _ _).mpr ⟨t, ht, hsame.id_eq.symm.trans e, ?_⟩
    cases hstate : t.state with
    | waiting => rfl
    | running =>
      rw [h.sound.stays_running op ht hstate ht' hsame.id_eq] at hwait'
      cases hwait'
  · intro t' ht' hid
    obtain ⟨t, ht, hsame⟩ := horigin t' ht' hid
    exact ⟨t, ht, hsame.id_eq.symm, hsame.priority_eq.symm⟩

theorem suppliedCapacity_slots (l : Lane) :
    Inner.suppliedCapacity (some l.maxParallel) = l.slots := by
  have hpar := l.parallel
  rw [Inner.suppliedCapacity, Lane.slots]
  omega

theorem QueueOk.accepts {l : Lane} {used : List String} {queue : Inner} (h : QueueOk l used queue)
    {a : Acquire} (hnew : a.reqId ∉ used) : queue.accepts a = true := by
  rw [Inner.accepts_iff, h.early]
  exact ⟨fun t ht e => hnew (e ▸ h.used t ht), List.not_mem_nil⟩

theorem QueueOk.acquire {l : Lane} {used : List String} {queue : Inner} (h : QueueOk l used queue)
    {a : Acquire} (ha : l.Sends a) (hnew : a.reqId ∉ used) :
    QueueOk l (a.reqId :: used) (queue.apply (.enqueueWith a)) := by
  obtain ⟨hlane, hmax, -, hreplaces⟩ := ha
  have hacc := h.accepts hnew
  have hcap : (queue.apply (.enqueueWith a)).capacity l.key = l.slots := by
    rw [h.sound.capacity_accepted hacc, if_pos hlane, hmax, suppliedCapacity_slots]
  have hlanes : ∀ t ∈ (queue.apply (.enqueueWith a)).tickets, t.lane = l.key := by
    intro t' ht'
    rcases h.sound.ticket_origin _ ht' with ⟨t, ht, hsame⟩ | ⟨b, e, -, hsame⟩
    · exact hsame.lane_eq.trans (h.lane t ht)
    · cases e
      exact hsame.lane_eq.trans hlane
  refine ⟨h.sound.apply _, h.conserved.apply h.sound _, ?_, hlanes, ?_, ?_, ?_⟩
  · intro t' ht'
    rcases h.sound.ticket_origin _ ht' with ⟨t, ht, hsame⟩ | ⟨b, e, -, hsame⟩
    · rw [hsame.id_eq]
      exact List.mem_cons_of_mem _ (h.used t ht)
    · cases e
      rw [hsame.id_eq]
      exact List.mem_cons_self
  · intro t ht
    rw [hlanes t ht, hcap]
  · rw [h.sound.accepted_reservations hacc, Inner.replacedReservations, hreplaces]
    exact h.reservations
  · rw [Inner.apply_accepted hacc, Inner.pump_cancelledEarly, Inner.enqueued_cancelledEarly]
    exact h.early

theorem QueueOk.acquire_ids {l : Lane} {used : List String} {queue : Inner}
    (h : QueueOk l used queue) {a : Acquire} (hnew : a.reqId ∉ used) :
    ((queue.apply (.enqueueWith a)).tickets.map Ticket.id).Perm
      (a.reqId :: queue.tickets.map Ticket.id) := by
  have hacc := h.accepts hnew
  obtain ⟨pre, post, hsplit, hins, -, -⟩ := queue.insertTicket_split a
  rw [Inner.apply_accepted hacc, Inner.pump_ids,
    Inner.enqueued_eq queue a (h.sound.sender_none ((queue.accepts_iff a).mp hacc).1), hins, hsplit,
    List.map_append, List.map_append, List.map_cons]
  exact List.perm_middle

theorem QueueOk.release {l : Lane} {used : List String} {queue : Inner} (h : QueueOk l used queue)
    (reqId : String) (now : UInt64) :
    QueueOk l used (queue.apply (.releaseWith reqId false now)) := by
  have hold : ∀ t' ∈ (queue.apply (.releaseWith reqId false now)).tickets,
      ∃ t ∈ queue.tickets, t.Same t' := by
    intro t' ht'
    rcases h.sound.ticket_origin _ ht' with ht | ⟨b, e, -⟩
    · exact ht
    · cases e
  have hlanes : ∀ t' ∈ (queue.apply (.releaseWith reqId false now)).tickets, t'.lane = l.key := by
    intro t' ht'
    obtain ⟨t, ht, hsame⟩ := hold t' ht'
    exact hsame.lane_eq.trans (h.lane t ht)
  refine ⟨h.sound.apply _, h.conserved.apply h.sound _, ?_, hlanes, ?_, ?_, ?_⟩
  · intro t' ht'
    obtain ⟨t, ht, hsame⟩ := hold t' ht'
    rw [hsame.id_eq]
    exact h.used t ht
  · intro t' ht'
    obtain ⟨t, ht, hsame⟩ := hold t' ht'
    rw [h.sound.capacity_other (fun a e => by cases e), hsame.lane_eq]
    exact h.capacity t ht
  · rw [h.sound.release_reservations, Inner.heldBack, h.reservations]
    rfl
  · rw [List.eq_nil_iff_forall_not_mem]
    intro id hid
    rcases h.sound.early_origin _ hid with hid | e
    · rw [h.early] at hid
      cases hid
    · cases e

theorem QueueOk.release_ids {l : Lane} {used : List String} {queue : Inner}
    (h : QueueOk l used queue) {reqId : String} (now : UInt64) {ids : List String}
    (hids : (queue.tickets.map Ticket.id).Perm (reqId :: ids)) :
    ((queue.apply (.releaseWith reqId false now)).tickets.map Ticket.id).Perm ids := by
  have hmem : reqId ∈ queue.tickets.map Ticket.id := hids.mem_iff.mpr List.mem_cons_self
  obtain ⟨t, ht, e⟩ := List.mem_map.mp hmem
  have hnodup : (reqId :: ids).Nodup := hids.nodup_iff.mp h.sound.ids_nodup
  have hfilter : ((queue.tickets.map Ticket.id).filter (fun id => id ≠ reqId)).Perm
      ((reqId :: ids).filter (fun id => id ≠ reqId)) := hids.filter _
  have hrest : (reqId :: ids).filter (fun id => id ≠ reqId) = ids := by
    rw [List.filter_cons_of_neg (by simp), List.filter_eq_self]
    intro id hid
    have hne : id ≠ reqId := fun e => (List.nodup_cons.mp hnodup).1 (e ▸ hid)
    simpa using hne
  rw [h.sound.apply_release false now (Or.inl ⟨t, ht, e⟩), Inner.pump_ids, Inner.leaving_tickets]
  rw [hrest, List.filter_map] at hfilter
  exact hfilter

/-! ## List facts -/

theorem set_perm {α : Type} {l : List α} {i : ℕ} {a : α} (h : l[i]? = some a) (b : α) :
    (l.set i b).Perm (b :: l.eraseIdx i) :=
  List.set_perm_cons_eraseIdx (List.getElem?_eq_some_iff.mp h).1 b

theorem get_perm {α : Type} {l : List α} {i : ℕ} {a : α} (h : l[i]? = some a) :
    l.Perm (a :: l.eraseIdx i) := by
  obtain ⟨hi, rfl⟩ := List.getElem?_eq_some_iff.mp h
  exact (List.getElem_cons_eraseIdx_perm hi).symm

/-! ## The invariant -/

/-- The request a call waits for. -/
def Call.queued? : Call → Option String
  | .queued reqId => some reqId
  | _ => none

/-- The requests the calls of a turn wait for. -/
def Turn.childIds : Turn → List String
  | .batch _ _ calls => calls.filterMap Call.queued?
  | _ => []

theorem Turn.mem_childIds {reqId : String} {borrowed : Bool} {calls : List Call} {id : String} :
    id ∈ (Turn.batch reqId borrowed calls).childIds ↔ .queued id ∈ calls := by
  rw [Turn.childIds, List.mem_filterMap]
  constructor
  · intro ⟨c, hc, e⟩
    cases c with
    | queued own =>
      cases e
      exact hc
    | waiting => cases e
    | tool => cases e
    | borrowing => cases e
    | running own => cases e
    | done => cases e
  · exact fun h => ⟨_, h, rfl⟩

theorem Turn.childIds_reqIds {turn : Turn} {id : String} (h : id ∈ turn.childIds) :
    id ∈ turn.reqIds := by
  cases turn with
  | batch reqId borrowed calls =>
    have hc := Turn.mem_childIds.mp h
    exact List.mem_cons_of_mem _ (List.mem_filterMap.mpr ⟨_, hc, rfl⟩)
  | queued reqId => cases h
  | holding reqId => cases h
  | finished => cases h

theorem Turn.blocked_iff (queue : Inner) (turn : Turn) :
    turn.blocked queue = true ↔ ∃ id ∈ turn.childIds, ticketIs queue .waiting id = true := by
  cases turn with
  | batch reqId borrowed calls =>
    rw [Turn.blocked, List.any_eq_true]
    constructor
    · intro ⟨c, hc, hstarved⟩
      cases c with
      | queued own => exact ⟨own, Turn.mem_childIds.mpr hc, hstarved⟩
      | waiting => cases hstarved
      | tool => cases hstarved
      | borrowing => cases hstarved
      | running own => cases hstarved
      | done => cases hstarved
    · exact fun ⟨id, hid, hwait⟩ => ⟨_, Turn.mem_childIds.mp hid, hwait⟩
  | queued reqId => simp [Turn.blocked, Turn.childIds]
  | holding reqId => simp [Turn.blocked, Turn.childIds]
  | finished => simp [Turn.blocked, Turn.childIds]

namespace World

structure Sane (l : Lane) (w : World) : Prop where
  queue : QueueOk l w.used w.queue
  ids : (w.queue.tickets.map Ticket.id).Perm (w.turns.flatMap Turn.reqIds)
  children : ∀ turn ∈ w.turns, ∀ id ∈ turn.childIds, ∀ t ∈ w.queue.tickets, t.id = id →
    t.priority = .foreground
  spared : w.turns.countP (Turn.blocked w.queue) < l.slots

variable {l : Lane} {w : World} {i : ℕ} {old new : Turn}

theorem Sane.mem_used (h : w.Sane l) {turn : Turn} (hturn : turn ∈ w.turns) {id : String}
    (hid : id ∈ turn.reqIds) : id ∈ w.used := by
  have hmem : id ∈ w.queue.tickets.map Ticket.id :=
    h.ids.mem_iff.mpr (List.mem_flatMap.mpr ⟨turn, hturn, hid⟩)
  obtain ⟨t, ht, rfl⟩ := List.mem_map.mp hmem
  exact h.queue.used t ht

/-- The requests and the blocked turns, with one turn set apart. -/
theorem flatMap_set (hi : w.turns[i]? = some old) (new : Turn) :
    ((w.turns.set i new).flatMap Turn.reqIds).Perm
      (new.reqIds ++ (w.turns.eraseIdx i).flatMap Turn.reqIds) :=
  (set_perm hi new).flatMap_right _

theorem flatMap_get (hi : w.turns[i]? = some old) : (w.turns.flatMap Turn.reqIds).Perm
    (old.reqIds ++ (w.turns.eraseIdx i).flatMap Turn.reqIds) :=
  (get_perm hi).flatMap_right _

theorem countP_set (hi : w.turns[i]? = some old) (new : Turn) (p : Turn → Bool) :
    (w.turns.set i new).countP p = (w.turns.eraseIdx i).countP p + if p new then 1 else 0 := by
  rw [(set_perm hi new).countP_eq, List.countP_cons]

theorem countP_get (hi : w.turns[i]? = some old) (p : Turn → Bool) :
    w.turns.countP p = (w.turns.eraseIdx i).countP p + if p old then 1 else 0 := by
  rw [(get_perm hi).countP_eq, List.countP_cons]

/-- A turn goes on and the queue does not notice. -/
theorem Sane.setTurn (h : w.Sane l) (hi : w.turns[i]? = some old)
    (hids : new.reqIds.Perm old.reqIds) (hchild : ∀ id ∈ new.childIds, id ∈ old.childIds) :
    (w.setTurn i new).Sane l := by
  have hold : old ∈ w.turns := List.mem_of_getElem? hi
  refine ⟨h.queue, ?_, ?_, ?_⟩
  · have hnew := (flatMap_set hi new).trans (hids.append_right _)
    exact h.ids.trans ((flatMap_get hi).trans hnew.symm)
  · intro turn hturn id hid t ht e
    rcases List.mem_or_eq_of_mem_set hturn with hturn | rfl
    · exact h.children turn hturn id hid t ht e
    · exact h.children old hold id (hchild id hid) t ht e
  · have hspared := h.spared
    have hblocked : new.blocked w.queue = true → old.blocked w.queue = true := by
      intro hb
      obtain ⟨id, hid, hwait⟩ := (Turn.blocked_iff _ _).mp hb
      exact (Turn.blocked_iff _ _).mpr ⟨id, hchild id hid, hwait⟩
    rw [countP_get hi] at hspared
    rw [World.setTurn]
    dsimp only
    rw [countP_set hi]
    refine Nat.lt_of_le_of_lt ?_ hspared
    cases hb : new.blocked w.queue with
    | false => exact Nat.le_add_right _ _
    | true =>
      rw [hblocked hb]

/-- The turns that block the queue after a call blocked it before. -/
theorem Sane.blocked_before (h : w.Sane l) {queue : Inner} (hq : Settles w.used w.queue queue)
    {turn : Turn} (hturn : turn ∈ w.turns) (hb : turn.blocked queue = true) :
    turn.blocked w.queue = true := by
  obtain ⟨id, hid, hwait⟩ := (Turn.blocked_iff _ _).mp hb
  have hused := h.mem_used hturn (Turn.childIds_reqIds hid)
  exact (Turn.blocked_iff _ _).mpr ⟨id, hid, hq.waiting id hused hwait⟩

theorem Sane.countP_eraseIdx (h : w.Sane l) {queue : Inner} (hq : Settles w.used w.queue queue)
    (i : ℕ) : (w.turns.eraseIdx i).countP (Turn.blocked queue) ≤
      (w.turns.eraseIdx i).countP (Turn.blocked w.queue) := by
  refine List.countP_mono_left ?_
  intro turn hturn hb
  exact h.blocked_before hq (List.mem_of_mem_eraseIdx hturn) hb

theorem Sane.child_priority (h : w.Sane l) {queue : Inner} (hq : Settles w.used w.queue queue)
    {turn : Turn} (hturn : turn ∈ w.turns) {id : String} (hid : id ∈ turn.childIds) {t' : Ticket}
    (ht' : t' ∈ queue.tickets) (e : t'.id = id) : t'.priority = .foreground := by
  have hused : t'.id ∈ w.used := e ▸ h.mem_used hturn (Turn.childIds_reqIds hid)
  obtain ⟨t, ht, htid, hprio⟩ := hq.priority t' ht' hused
  rw [← hprio]
  exact h.children turn hturn id hid t ht (htid.trans e)

/-- A turn or a call gives its slot back for good. -/
theorem Sane.release (h : w.Sane l) (hi : w.turns[i]? = some old) {reqId : String} (now : UInt64)
    (hids : old.reqIds.Perm (reqId :: new.reqIds))
    (hchild : ∀ id ∈ new.childIds, id ∈ old.childIds) :
    ((w.release reqId now).setTurn i new).Sane l := by
  have hold : old ∈ w.turns := List.mem_of_getElem? hi
  have hq := h.queue.settles (.releaseWith reqId false now) (fun a e => by cases e)
  refine ⟨h.queue.release reqId now, ?_, ?_, ?_⟩
  · refine (h.queue.release_ids now ?_).trans (flatMap_set hi new).symm
    exact h.ids.trans ((flatMap_get hi).trans (hids.append_right _))
  · intro turn hturn id hid t' ht' e
    rcases List.mem_or_eq_of_mem_set hturn with hturn | rfl
    · exact h.child_priority hq hturn hid ht' e
    · exact h.child_priority hq hold (hchild id hid) ht' e
  · have hspared := h.spared
    have hblocked : new.blocked (w.queue.apply (.releaseWith reqId false now)) = true →
        old.blocked w.queue = true := by
      intro hb
      obtain ⟨id, hid, hwait⟩ := (Turn.blocked_iff _ _).mp hb
      exact h.blocked_before hq hold ((Turn.blocked_iff _ _).mpr ⟨id, hchild id hid, hwait⟩)
    have hrest := h.countP_eraseIdx hq i
    rw [countP_get hi] at hspared
    rw [World.setTurn, World.release]
    dsimp only
    rw [countP_set hi]
    refine Nat.lt_of_le_of_lt (Nat.add_le_add hrest ?_) hspared
    cases hb : new.blocked (w.queue.apply (.releaseWith reqId false now)) with
    | false => exact Nat.zero_le _
    | true => rw [hblocked hb]

/-- A call queues for a slot of its own, and some slot is spared. -/
theorem Sane.queueCall (h : w.Sane l) (hi : w.turns[i]? = some old) {a : Acquire}
    (ha : l.Sends a) (hprio : a.admission.priority = .foreground) (hnew : a.reqId ∉ w.used)
    (hids : new.reqIds.Perm (a.reqId :: old.reqIds))
    (hchild : ∀ id ∈ new.childIds, id = a.reqId ∨ id ∈ old.childIds)
    (hspares : (w.turns.eraseIdx i).countP (Turn.blocked w.queue) + 1 < l.slots) :
    ((w.acquire a).setTurn i new).Sane l := by
  have hold : old ∈ w.turns := List.mem_of_getElem? hi
  have hq := h.queue.settles (.enqueueWith a) (fun b e => by cases e; exact hnew)
  have hown : ∀ t' ∈ (w.queue.apply (.enqueueWith a)).tickets, t'.id = a.reqId →
      t'.priority = .foreground := by
    intro t' ht' e
    rcases h.queue.sound.ticket_origin _ ht' with ⟨t, ht, hsame⟩ | ⟨b, eb, -, hsame⟩
    · have hused := h.queue.used t ht
      rw [hsame.id_eq.symm.trans e] at hused
      exact absurd hused hnew
    · cases eb
      exact hsame.priority_eq.trans hprio
  refine ⟨h.queue.acquire ha hnew, ?_, ?_, ?_⟩
  · refine (h.queue.acquire_ids hnew).trans ?_
    have hcons := (h.ids.trans (flatMap_get hi)).cons a.reqId
    exact hcons.trans ((hids.append_right _).symm.trans (flatMap_set hi new).symm)
  · intro turn hturn id hid t' ht' e
    rcases List.mem_or_eq_of_mem_set hturn with hturn | rfl
    · exact h.child_priority hq hturn hid ht' e
    · rcases hchild id hid with hid | hid
      · exact hown t' ht' (e.trans hid)
      · exact h.child_priority hq hold hid ht' e
  · have hrest := h.countP_eraseIdx hq i
    rw [World.setTurn, World.acquire]
    dsimp only
    rw [countP_set hi]
    split <;> omega

/-- Another turn comes to the lane. -/
theorem Sane.newTurn (h : w.Sane l) {a : Acquire} (ha : l.Sends a) (hnew : a.reqId ∉ w.used) :
    ({ w.acquire a with turns := w.turns ++ [Turn.queued a.reqId] } : World).Sane l := by
  have hq := h.queue.settles (.enqueueWith a) (fun b e => by cases e; exact hnew)
  refine ⟨h.queue.acquire ha hnew, ?_, ?_, ?_⟩
  · rw [List.flatMap_append]
    refine (h.queue.acquire_ids hnew).trans ((h.ids.cons _).trans ?_)
    exact List.perm_append_singleton a.reqId _ |>.symm
  · intro turn hturn id hid t' ht' e
    rcases List.mem_append.mp hturn with hturn | hturn
    · exact h.child_priority hq hturn hid ht' e
    · rw [List.mem_singleton.mp hturn] at hid
      cases hid
  · rw [List.countP_append]
    refine Nat.lt_of_le_of_lt ?_ h.spared
    refine List.countP_mono_left ?_
    intro turn hturn hb
    exact h.blocked_before hq hturn hb

theorem start_sane (l : Lane) : start.Sane l := by
  have hpar := l.parallel
  have hconserved : Inner.empty.Conserved := fun t ht => by cases ht
  refine ⟨⟨Inner.empty_sound, hconserved, ?_, ?_, ?_, rfl, rfl⟩, List.Perm.refl _, ?_, ?_⟩
  · intro t ht
    cases ht
  · intro t ht
    cases ht
  · intro t ht
    cases ht
  · intro turn hturn
    cases hturn
  · show 0 < l.maxParallel.toNat
    omega

end World

/-! ## One call of a batch changes -/

theorem filterMap_cons_toList {α β : Type} (f : α → Option β) (a : α) (l : List α) :
    (a :: l).filterMap f = (f a).toList ++ l.filterMap f := by
  rw [List.filterMap_cons]
  cases f a with
  | none => rfl
  | some b => rfl

section

variable {calls : List Call} {j : ℕ} {c : Call} (reqId : String) (borrowed borrowed' : Bool)

theorem Turn.set_reqIds (hj : calls[j]? = some c) (c' : Call) :
    (Turn.batch reqId borrowed (calls.set j c')).reqIds.Perm
      (c'.reqId?.toList ++ reqId :: (calls.eraseIdx j).filterMap Call.reqId?) := by
  have hset := (set_perm hj c').filterMap Call.reqId?
  rw [filterMap_cons_toList] at hset
  exact (hset.cons reqId).trans List.perm_middle.symm

theorem Turn.get_reqIds (hj : calls[j]? = some c) :
    (Turn.batch reqId borrowed calls).reqIds.Perm
      (c.reqId?.toList ++ reqId :: (calls.eraseIdx j).filterMap Call.reqId?) := by
  have hget := (get_perm hj).filterMap Call.reqId?
  rw [filterMap_cons_toList] at hget
  exact (hget.cons reqId).trans List.perm_middle.symm

theorem Turn.set_childIds {c' : Call} {id : String}
    (hid : id ∈ (Turn.batch reqId borrowed' (calls.set j c')).childIds) :
    c' = .queued id ∨ id ∈ (Turn.batch reqId borrowed calls).childIds := by
  rw [Turn.mem_childIds] at hid ⊢
  rcases List.mem_or_eq_of_mem_set hid with hid | e
  · exact Or.inr hid
  · exact Or.inl e.symm

end

namespace World

section

variable {l : Lane} {w w' : World} {i j : ℕ} {reqId : String} {borrowed borrowed' : Bool}
  {calls : List Call} {c c' : Call}

theorem Sane.setCall (h : w.Sane l) (hi : w.turns[i]? = some (.batch reqId borrowed calls))
    (hj : calls[j]? = some c) (hids : c'.reqId? = c.reqId?) (hqueued : ∀ id, c' ≠ .queued id) :
    (w.setTurn i (.batch reqId borrowed' (calls.set j c'))).Sane l := by
  refine h.setTurn hi ?_ ?_
  · have hget := Turn.get_reqIds reqId borrowed hj
    rw [← hids] at hget
    exact (Turn.set_reqIds reqId borrowed' hj c').trans hget.symm
  · intro id hid
    exact (Turn.set_childIds reqId borrowed borrowed' hid).resolve_left (hqueued id)

/-- Every event keeps the invariant, if it meets the condition. -/
theorem Sane.step (h : w.Sane l) {e : Event} (hs : w.step l e = some w')
    (hspares : w.Spares l e) : w'.Sane l := by
  cases e with
  | start a =>
    simp only [World.step, Option.ite_none_right_eq_some] at hs
    obtain ⟨⟨ha, hnew⟩, e⟩ := hs
    cases e
    exact h.newTurn ha hnew
  | admitted i =>
    simp only [World.step] at hs
    split at hs
    · rename_i hi
      split at hs
      · cases hs
        exact h.setTurn hi (List.Perm.refl _) (fun id hid => hid)
      · cases hs
    · cases hs
  | beginBatch i n =>
    simp only [World.step] at hs
    split at hs
    · rename_i reqId hi
      cases hs
      have hwaiting : (List.replicate n Call.waiting).filterMap Call.reqId? = [] := by
        simp [Call.reqId?]
      refine h.setTurn hi ?_ ?_
      · show (reqId :: (List.replicate n Call.waiting).filterMap Call.reqId?).Perm [reqId]
        rw [hwaiting]
      · intro id hid
        cases List.eq_of_mem_replicate (Turn.mem_childIds.mp hid)
    · cases hs
  | startCall i j =>
    simp only [World.step] at hs
    split at hs
    · rename_i hi
      split at hs
      · rename_i hj
        cases hs
        exact h.setCall hi hj.1 rfl (fun id e => by cases e)
      · cases hs
    · cases hs
  | borrow i j =>
    simp only [World.step] at hs
    split at hs
    · rename_i hi
      split at hs
      · rename_i hj
        cases hs
        exact h.setCall hi hj.1 rfl (fun id e => by cases e)
      · cases hs
    · cases hs
  | queue i j a =>
    simp only [World.step] at hs
    split at hs
    · rename_i reqId borrowed calls hi
      split at hs
      · rename_i hj
        obtain ⟨hj, -, ha, hprio, hnew⟩ := hj
        cases hs
        refine h.queueCall hi ha hprio hnew ?_ ?_ hspares
        · have hget := Turn.get_reqIds reqId borrowed hj
          exact (Turn.set_reqIds reqId borrowed hj _).trans (hget.cons a.reqId).symm
        · intro id hid
          rcases Turn.set_childIds reqId borrowed borrowed hid with e | hid
          · cases e
            exact Or.inl rfl
          · exact Or.inr hid
      · cases hs
    · cases hs
  | callAdmitted i j =>
    simp only [World.step] at hs
    split at hs
    · rename_i hi
      split at hs
      · rename_i own hj
        split at hs
        · cases hs
          exact h.setCall hi hj rfl (fun id e => by cases e)
        · cases hs
      · cases hs
    · cases hs
  | modelDone i j =>
    simp only [World.step] at hs
    split at hs
    · rename_i reqId borrowed calls hi
      split at hs
      · rename_i hj
        cases hs
        exact h.setCall hi hj rfl (fun id e => by cases e)
      · rename_i own hj
        cases hs
        refine h.release hi 0 ?_ ?_
        · have hset := Turn.set_reqIds reqId borrowed hj .tool
          exact (Turn.get_reqIds reqId borrowed hj).trans (hset.cons own).symm
        · intro id hid
          refine (Turn.set_childIds reqId borrowed borrowed hid).resolve_left (fun e => ?_)
          cases e
      · cases hs
    · cases hs
  | toolDone i j =>
    simp only [World.step] at hs
    split at hs
    · rename_i hi
      split at hs
      · rename_i hj
        cases hs
        exact h.setCall hi hj rfl (fun id e => by cases e)
      · cases hs
    · cases hs
  | endBatch i =>
    simp only [World.step] at hs
    split at hs
    · rename_i reqId borrowed calls hi
      split at hs
      · rename_i hdone
        cases hs
        have hnone : calls.filterMap Call.reqId? = [] := by
          rw [List.filterMap_eq_nil_iff]
          intro c hc
          have hc := of_decide_eq_true (List.all_eq_true.mp hdone c hc)
          rw [hc]
          rfl
        refine h.setTurn hi ?_ (fun id hid => by cases hid)
        rw [Turn.reqIds, Turn.reqIds, hnone]
      · cases hs
    · cases hs
  | finish i =>
    simp only [World.step] at hs
    split at hs
    · rename_i hi
      cases hs
      exact h.release hi 0 (List.Perm.refl _) (fun id hid => by cases hid)
    · cases hs

end

end World

end Haruspex.SlotLender
