import Haruspex.SlotLender.Progress

/-! Lending and deadlock. A turn that waits for one of its calls keeps its slot, so a lane is locked
up once every slot is kept that way; while one slot is spared, somebody can always go on. -/
namespace Haruspex.SlotLender
open InferenceQueue
set_option autoImplicit false

namespace World

variable {l : Lane} {w : World}

/-! ## Counting the slots that are kept -/

/-- The requests of the turns that keep their slot. -/
def keptIds (w : World) : List String :=
  (w.turns.filter (Turn.blocked w.queue)).filterMap (fun turn => turn.reqIds.head?)

theorem length_keptIds (w : World) :
    w.keptIds.length ≤ w.turns.countP (Turn.blocked w.queue) := by
  rw [List.countP_eq_length_filter]
  exact List.length_filterMap_le _ _

theorem mem_keptIds {id : String} : id ∈ w.keptIds ↔
    ∃ turn ∈ w.turns, turn.blocked w.queue = true ∧ turn.reqIds.head? = some id := by
  simp [keptIds, and_assoc]

theorem Sane.runningOn_le (h : w.Sane l)
    (hkept : ∀ t ∈ w.queue.tickets, t.state = .running → t.id ∈ w.keptIds) (lane : String) :
    w.queue.runningOn lane ≤ w.turns.countP (Turn.blocked w.queue) := by
  have hnodup := h.queue.sound.ids_nodup.sublist
    (List.filter_sublist (p := fun t => t.lane = lane ∧ t.state = .running).map Ticket.id)
  have hsub : (w.queue.tickets.filter (fun t => t.lane = lane ∧ t.state = .running)).map Ticket.id ⊆
      w.keptIds := by
    intro id hid
    obtain ⟨t, ht, rfl⟩ := List.mem_map.mp hid
    obtain ⟨ht, hrunning⟩ := List.mem_filter.mp ht
    exact hkept t ht (of_decide_eq_true hrunning).2
  have hlength := (List.subperm_of_subset hnodup hsub).length_le
  rw [List.length_map, ← List.countP_eq_length_filter] at hlength
  exact hlength.trans w.length_keptIds

/-- While every running ticket is that of a turn that waits, the lane has room. -/
theorem Sane.room (h : w.Sane l)
    (hkept : ∀ t ∈ w.queue.tickets, t.state = .running → t.id ∈ w.keptIds) {t : Ticket}
    (ht : t ∈ w.queue.tickets) : w.queue.runningOn t.lane < w.queue.capacity t.lane := by
  rw [h.queue.capacity t ht]
  exact Nat.lt_of_le_of_lt (h.runningOn_le hkept t.lane) h.spared

theorem Sane.foreground_runs (h : w.Sane l)
    (hkept : ∀ t ∈ w.queue.tickets, t.state = .running → t.id ∈ w.keptIds) {t : Ticket}
    (ht : t ∈ w.queue.tickets) (hfore : t.priority = .foreground) : t.state = .running := by
  cases hstate : t.state with
  | running => rfl
  | waiting =>
    have hroom := h.room hkept ht
    rcases h.queue.conserved t ht hstate with hfull | ⟨hback, -⟩
    · omega
    · rw [hfore] at hback
      cases hback

/-- A turn that waits for one of its calls waits for a foreground ticket. -/
theorem Sane.waits_for (h : w.Sane l) {turn : Turn} (hturn : turn ∈ w.turns)
    (hblocked : turn.blocked w.queue = true) :
    ∃ t ∈ w.queue.tickets, t.state = .waiting ∧ t.priority = .foreground := by
  obtain ⟨id, hid, hwait⟩ := (Turn.blocked_iff _ _).mp hblocked
  obtain ⟨t, ht, e, hstate⟩ := (ticketIs_iff _ _ _).mp hwait
  exact ⟨t, ht, hstate, h.children turn hturn id hid t ht e⟩

theorem Sane.not_blocked (h : w.Sane l)
    (hkept : ∀ t ∈ w.queue.tickets, t.state = .running → t.id ∈ w.keptIds) {turn : Turn}
    (hturn : turn ∈ w.turns) : turn.blocked w.queue = false := by
  cases hblocked : turn.blocked w.queue with
  | false => rfl
  | true =>
    obtain ⟨t, ht, hstate, hfore⟩ := h.waits_for hturn hblocked
    rw [h.foreground_runs hkept ht hfore] at hstate
    cases hstate

theorem Sane.not_deadlocked (h : w.Sane l) : ¬ w.Deadlocked := by
  intro ⟨⟨t, ht, hrunning⟩, hall⟩
  have hkept : ∀ t ∈ w.queue.tickets, t.state = .running → t.id ∈ w.keptIds :=
    fun t ht hrunning => mem_keptIds.mpr (hall t ht hrunning)
  obtain ⟨turn, hturn, hblocked, -⟩ := hall t ht hrunning
  rw [h.not_blocked hkept hturn] at hblocked
  cases hblocked

/-! ## A lane at rest has somewhere to go -/

/-- No turn can go on by itself. -/
def Stuck (l : Lane) (w : World) : Prop := ∀ e, Event.isTurnStep e = true → w.step l e = none

theorem Sane.ticket_of (h : w.Sane l) {turn : Turn} (hturn : turn ∈ w.turns) {id : String}
    (hid : id ∈ turn.reqIds) (hnot : ticketIs w.queue .running id = false) :
    ticketIs w.queue .waiting id = true := by
  have hmem : id ∈ w.queue.tickets.map Ticket.id :=
    h.ids.mem_iff.mpr (List.mem_flatMap.mpr ⟨turn, hturn, hid⟩)
  obtain ⟨t, ht, e⟩ := List.mem_map.mp hmem
  refine (ticketIs_iff _ _ _).mpr ⟨t, ht, e, ?_⟩
  cases hstate : t.state with
  | waiting => rfl
  | running =>
    have hrunning := (ticketIs_iff w.queue .running id).mpr ⟨t, ht, e, hstate⟩
    rw [hnot] at hrunning
    cases hrunning

theorem Stuck.queued (h : w.Stuck l) {reqId : String} (hturn : Turn.queued reqId ∈ w.turns) :
    ticketIs w.queue .running reqId = false := by
  obtain ⟨i, hi, e⟩ := List.getElem_of_mem hturn
  have hi : w.turns[i]? = some (.queued reqId) := List.getElem?_eq_some_iff.mpr ⟨hi, e⟩
  have hstuck := h (.admitted i) rfl
  simpa [World.step, hi] using hstuck

theorem Stuck.call (h : w.Stuck l) {reqId own : String} {borrowed : Bool} {calls : List Call}
    (hturn : Turn.batch reqId borrowed calls ∈ w.turns) (hcall : Call.queued own ∈ calls) :
    ticketIs w.queue .running own = false := by
  obtain ⟨i, hi, e⟩ := List.getElem_of_mem hturn
  have hi : w.turns[i]? = some (.batch reqId borrowed calls) :=
    List.getElem?_eq_some_iff.mpr ⟨hi, e⟩
  obtain ⟨j, hj, e⟩ := List.getElem_of_mem hcall
  have hj : calls[j]? = some (.queued own) := List.getElem?_eq_some_iff.mpr ⟨hj, e⟩
  have hstuck := h (.callAdmitted i j) rfl
  simpa [World.step, hi, hj] using hstuck

theorem one_le_toolCallConcurrency (l : Lane) : 1 ≤ l.toolCallConcurrency := by
  rw [Lane.toolCallConcurrency, Lane.maxParallelToolCalls]
  split <;> omega

/-- At rest a batch that cannot go on has a call that waits for a slot. -/
theorem Stuck.batch (h : w.Stuck l) {reqId : String} {borrowed : Bool} {calls : List Call}
    (hturn : Turn.batch reqId borrowed calls ∈ w.turns)
    (hrest : (Turn.batch reqId borrowed calls).inProgress = false) :
    ∃ own, Call.queued own ∈ calls := by
  by_contra hnone
  have hnone : ∀ own, Call.queued own ∉ calls := fun own hown => hnone ⟨own, hown⟩
  have hidle : ∀ c ∈ calls, c = .waiting ∨ c = .done := by
    intro c hc
    have hc' := List.any_eq_false.mp hrest c hc
    cases c with
    | waiting => exact Or.inl rfl
    | done => exact Or.inr rfl
    | queued own => exact absurd hc (hnone own)
    | tool => exact absurd rfl hc'
    | borrowing => exact absurd rfl hc'
    | running own => exact absurd rfl hc'
  have hactive : calls.countP Call.active = 0 := by
    rw [List.countP_eq_zero]
    intro c hc
    rcases hidle c hc with rfl | rfl <;> simp [Call.active]
  obtain ⟨i, hi, e⟩ := List.getElem_of_mem hturn
  have hi : w.turns[i]? = some (.batch reqId borrowed calls) :=
    List.getElem?_eq_some_iff.mpr ⟨hi, e⟩
  by_cases hwaiting : Call.waiting ∈ calls
  · obtain ⟨j, hj, e⟩ := List.getElem_of_mem hwaiting
    have hj : calls[j]? = some .waiting := List.getElem?_eq_some_iff.mpr ⟨hj, e⟩
    have hone := one_le_toolCallConcurrency l
    have hstuck := h (.startCall i j) rfl
    simp only [World.step, hi, hj, hactive, true_and] at hstuck
    rw [if_pos (by omega)] at hstuck
    cases hstuck
  · have hdone : calls.all (fun c => c = .done) = true := by
      rw [List.all_eq_true]
      intro c hc
      have hc' : c = .done := (hidle c hc).resolve_left (fun e => hwaiting (e ▸ hc))
      exact decide_eq_true hc'
    have hstuck := h (.endBatch i) rfl
    simp only [World.step, hi, hdone, if_true] at hstuck
    cases hstuck

theorem Stuck.blocked (h : w.Stuck l) (hsane : w.Sane l) {reqId : String} {borrowed : Bool}
    {calls : List Call} (hturn : Turn.batch reqId borrowed calls ∈ w.turns)
    (hrest : (Turn.batch reqId borrowed calls).inProgress = false) :
    (Turn.batch reqId borrowed calls).blocked w.queue = true := by
  obtain ⟨own, hown⟩ := h.batch hturn hrest
  have hid : own ∈ (Turn.batch reqId borrowed calls).childIds := Turn.mem_childIds.mpr hown
  have hwait := hsane.ticket_of hturn (Turn.childIds_reqIds hid) (h.call hturn hown)
  exact (Turn.blocked_iff _ _).mpr ⟨own, hid, hwait⟩

/-- At rest every running ticket of a lane that cannot go on is that of a turn that waits. -/
theorem Stuck.kept (h : w.Stuck l) (hsane : w.Sane l)
    (hrest : ∀ turn ∈ w.turns, turn.inProgress = false) {t : Ticket} (ht : t ∈ w.queue.tickets)
    (hrunning : t.state = .running) : t.id ∈ w.keptIds := by
  have hticket : ticketIs w.queue .running t.id = true :=
    (ticketIs_iff _ _ _).mpr ⟨t, ht, rfl, hrunning⟩
  have hmem := hsane.ids.mem_iff.mp (List.mem_map_of_mem (f := Ticket.id) ht)
  obtain ⟨turn, hturn, hid⟩ := List.mem_flatMap.mp hmem
  cases turn with
  | queued reqId =>
    rw [List.mem_singleton.mp hid, h.queued hturn] at hticket
    cases hticket
  | holding reqId => cases hrest _ hturn
  | finished => cases hid
  | batch reqId borrowed calls =>
    rcases List.mem_cons.mp hid with e | hid
    · rw [e]
      exact mem_keptIds.mpr ⟨_, hturn, h.blocked hsane hturn (hrest _ hturn), rfl⟩
    · obtain ⟨c, hc, e⟩ := List.mem_filterMap.mp hid
      cases c with
      | queued own =>
        cases e
        rw [h.call hturn hc] at hticket
        cases hticket
      | running own =>
        have hidle := List.any_eq_false.mp (hrest _ hturn) _ hc
        exact absurd rfl hidle
      | waiting => cases e
      | tool => cases e
      | borrowing => cases e
      | done => cases e

theorem Sane.not_stuck (h : w.Sane l) (hrest : w.AtRest) : ¬ w.Stuck l := by
  intro hstuck
  obtain ⟨⟨turn, hturn, hunfinished⟩, hrest⟩ := hrest
  have hkept : ∀ t ∈ w.queue.tickets, t.state = .running → t.id ∈ w.keptIds :=
    fun t ht => hstuck.kept h hrest ht
  -- Any ticket in the foreground runs, so its turn waits for another.
  have hback : ∀ t ∈ w.queue.tickets, t.priority = .background := by
    intro t ht
    cases hprio : t.priority with
    | background => rfl
    | foreground =>
      have hkeeps := hkept t ht (h.foreground_runs hkept ht hprio)
      obtain ⟨other, hother, hblocked, -⟩ := mem_keptIds.mp hkeeps
      rw [h.not_blocked hkept hother] at hblocked
      cases hblocked
  cases turn with
  | queued reqId =>
    have hwait := h.ticket_of hturn List.mem_cons_self (hstuck.queued hturn)
    obtain ⟨t, ht, -, hstate⟩ := (ticketIs_iff _ _ _).mp hwait
    rcases h.queue.conserved t ht hstate with hfull | ⟨-, ⟨u, hu, -, hfore⟩ | ⟨r, hr, -⟩⟩
    · have hroom := h.room hkept ht
      omega
    · rw [hback u hu] at hfore
      cases hfore
    · rw [h.queue.reservations] at hr
      cases hr
  | holding reqId => cases hrest _ hturn
  | finished => exact hunfinished rfl
  | batch reqId borrowed calls =>
    have hblocked := hstuck.blocked h hturn (hrest _ hturn)
    rw [h.not_blocked hkept hturn] at hblocked
    cases hblocked

theorem exists_step_of_not_stuck (h : ¬ w.Stuck l) :
    ∃ e, Event.isTurnStep e = true ∧ (w.step l e).isSome = true := by
  by_contra hnone
  refine h (fun e hturn => ?_)
  cases hstep : w.step l e with
  | none => rfl
  | some w' =>
    refine absurd ⟨e, hturn, ?_⟩ hnone
    rw [hstep]
    rfl

/-! ## Runs -/

/-- Every call of the run that queues for a slot of its own meets the condition. -/
def SparesRun (l : Lane) : World → List Event → Prop
  | _, [] => True
  | w, e :: events => w.Spares l e ∧ ∀ w' ∈ w.step l e, SparesRun l w' events

instance decidableSparesRun (l : Lane) :
    (w : World) → (events : List Event) → Decidable (SparesRun l w events)
  | _, [] => .isTrue trivial
  | w, e :: events =>
    have : DecidablePred (fun w' => SparesRun l w' events) := fun w' =>
      decidableSparesRun l w' events
    inferInstanceAs (Decidable (w.Spares l e ∧ ∀ w' ∈ w.step l e, _))

theorem Sane.run {events : List Event} {w' : World} (h : w.Sane l)
    (hspares : SparesRun l w events) (hrun : w.run l events = some w') : w'.Sane l := by
  induction events generalizing w with
  | nil =>
    cases hrun
    exact h
  | cons e events ih =>
    rw [World.run, List.foldlM_cons] at hrun
    obtain ⟨w₁, hstep, hrest⟩ := Option.bind_eq_some_iff.mp hrun
    exact ih (h.step hstep hspares.1) (hspares.2 w₁ hstep) hrest

end World

/-- While every call that queues for a slot leaves one to somebody else, the lane never locks up:
no state has only running tickets whose turns wait for a call, and one with no model call and no
tool in progress lets some turn go on. -/
theorem lending_never_locks (l : Lane) (events : List Event)
    (hspares : World.SparesRun l World.start events) (w : World)
    (hrun : World.start.run l events = some w) :
    ¬ w.Deadlocked ∧
      (w.AtRest → ∃ e, Event.isTurnStep e = true ∧ (w.step l e).isSome = true) := by
  have hsane := (World.start_sane l).run hspares hrun
  exact ⟨hsane.not_deadlocked, fun hrest => World.exists_step_of_not_stuck (hsane.not_stuck hrest)⟩

/-- A local server with two slots. -/
def twoSlots : Lane := ⟨"local", 2, by decide⟩

def laneAcquire (reqId : String) : Acquire :=
  ⟨reqId, "", "local", some 2, "main", ⟨false, .foreground, none⟩, 0⟩

/-- One turn starts, gets its slot and runs two calls: one uses the turn's slot, the other queues. -/
def lendingTurn (i : ℕ) (own : String) : List Event :=
  [.beginBatch i 2, .startCall i 0, .startCall i 1, .borrow i 0, .queue i 1 (laneAcquire own),
    .modelDone i 0, .toolDone i 0]

def oneTurn : List Event := [.start (laneAcquire "main:1"), .admitted 0] ++ lendingTurn 0 "main:2"

def twoTurns : List Event :=
  [.start (laneAcquire "main:1"), .admitted 0, .start (laneAcquire "main:2"), .admitted 1] ++
    lendingTurn 0 "main:3" ++ lendingTurn 1 "main:4"

theorem lending_never_locks_oneTurn :
    ∃ w, World.start.run twoSlots oneTurn = some w ∧ w.AtRest ∧ ¬ w.Deadlocked ∧
      ∃ e, Event.isTurnStep e = true ∧ (w.step twoSlots e).isSome = true := by
  refine ⟨_, rfl, by decide, ?_⟩
  obtain ⟨hfree, hgoes⟩ := lending_never_locks twoSlots oneTurn (by decide) _ rfl
  exact ⟨hfree, hgoes (by decide)⟩

/-- Two turns on two slots, each with one call in its own slot and one that queues: both keep their
slot for a call that waits for the other's, and neither can go on. -/
theorem twoTurns_lock_up :
    ∃ w, World.start.run twoSlots twoTurns = some w ∧ w.Deadlocked ∧ w.AtRest ∧
      ∀ e, Event.isTurnStep e = true → w.step twoSlots e = none := by
  refine ⟨_, rfl, by decide, by decide, ?_⟩
  intro e hturn
  cases e with
  | admitted i =>
    match i with
    | 0 | 1 | _ + 2 => rfl
  | startCall i j =>
    match i, j with
    | 0, 0 | 0, 1 | 0, _ + 2 | 1, 0 | 1, 1 | 1, _ + 2 | _ + 2, _ => rfl
  | callAdmitted i j =>
    match i, j with
    | 0, 0 | 0, 1 | 0, _ + 2 | 1, 0 | 1, 1 | 1, _ + 2 | _ + 2, _ => rfl
  | endBatch i =>
    match i with
    | 0 | 1 | _ + 2 => rfl
  | start a => cases hturn
  | beginBatch i calls => cases hturn
  | borrow i j => cases hturn
  | queue i j a => cases hturn
  | modelDone i j => cases hturn
  | toolDone i j => cases hturn
  | finish i => cases hturn

end Haruspex.SlotLender
