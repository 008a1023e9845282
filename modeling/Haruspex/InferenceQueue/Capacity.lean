import Haruspex.InferenceQueue.Steps
import Mathlib.Data.List.Induction

/-! Capacity safety: an admission leaves its lane within the capacity in force, so a lane whose
acquires agree on a bound never runs more tickets than that, and a lane whose capacity was lowered
admits nobody until enough of its tickets are gone. -/
namespace Haruspex.InferenceQueue
open AdmissionScan
set_option autoImplicit false

/-- The acquires a run of calls from `s` accepts, in order. -/
def acceptedFrom (s : Inner) : List Op → List Acquire
  | [] => []
  | .enqueueWith a :: ops =>
    (if s.accepts a then [a] else []) ++ acceptedFrom (s.apply (.enqueueWith a)) ops
  | op :: ops => acceptedFrom (s.apply op) ops

/-- The acquires a run accepts, in order. -/
def accepted (ops : List Op) : List Acquire := acceptedFrom Inner.empty ops

/-- The capacity a list of accepted acquires leaves in force on a lane: what the last of them for
the lane supplied, and 1 before the first. -/
def inForce (acquires : List Acquire) (lane : String) : ℕ :=
  match acquires.reverse.find? (fun a => a.lane = lane) with
  | some a => Inner.suppliedCapacity a.maxParallel
  | none => 1

theorem acceptedFrom_append (s : Inner) (ops ops' : List Op) : acceptedFrom s (ops ++ ops') =
    acceptedFrom s ops ++ acceptedFrom (ops.foldl Inner.apply s) ops' := by
  induction ops generalizing s with
  | nil => rfl
  | cons op ops ih =>
    cases op with
    | enqueueWith a =>
      rw [List.cons_append, acceptedFrom, acceptedFrom, ih, List.append_assoc]
      rfl
    | cancel reqId => exact ih _
    | releaseWith reqId reserve now => exact ih _
    | heartbeat reqId now => exact ih _
    | releaseWindow label => exact ih _
    | sweepExpiredAt now => exact ih _

theorem accepted_concat (ops : List Op) (op : Op) :
    accepted (ops ++ [op]) = accepted ops ++ acceptedFrom (run ops) [op] :=
  acceptedFrom_append Inner.empty ops [op]

theorem inForce_concat (as : List Acquire) (a : Acquire) (lane : String) : inForce (as ++ [a]) lane =
    if a.lane = lane then Inner.suppliedCapacity a.maxParallel else inForce as lane := by
  rw [inForce, inForce, List.reverse_append, List.reverse_singleton, List.singleton_append,
    List.find?_cons]
  by_cases h : a.lane = lane
  · simp [h]
  · simp [h]

namespace Inner

theorem Sound.capacity_accepted {s : Inner} (hs : s.Sound) {a : Acquire}
    (hacc : s.accepts a = true) (lane : String) : (s.apply (.enqueueWith a)).capacity lane =
      if a.lane = lane then suppliedCapacity a.maxParallel else s.capacity lane := by
  rw [apply_accepted hacc, pump_capacity, Inner.capacity,
    enqueued_eq s a (hs.sender_none ((s.accepts_iff a).mp hacc).1)]
  by_cases e : a.lane = lane
  · subst e
    simp
  · simp [e, Function.update_of_ne (Ne.symm e), Inner.capacity]

theorem Sound.capacity_other {s : Inner} (hs : s.Sound) {op : Op}
    (hop : ∀ a, op = .enqueueWith a → s.accepts a = false) (lane : String) :
    (s.apply op).capacity lane = s.capacity lane := by
  have hstep := hs.step op
  generalize s.apply op = s' at hstep
  cases hstep with
  | quiet hq _ => rw [Inner.capacity, Inner.capacity, hq.laneCapacity]
  | @join a hacc =>
    rw [hop a rfl] at hacc
    cases hacc
  | leave keep rs _ => rw [pump_capacity, Inner.capacity, Inner.capacity, leaving_laneCapacity]

/-- What an admission finds and leaves: room on its lane before, and the lane within its capacity
after. -/
theorem pumped_room {m : Inner} {u : Ticket} (hu : u ∈ m.pumped) :
    m.runningOn u.lane < m.capacity u.lane ∧ m.pump.runningOn u.lane ≤ m.pump.capacity u.lane := by
  have hroom := m.gate.room_of_started _ _ hu
  rw [runningByLane_eq] at hroom
  refine ⟨hroom, ?_⟩
  rw [pump_runningOn, pump_capacity]
  refine m.gate.tally_le _ _ u.lane ?_
  rw [runningByLane_eq]
  exact hroom.le

/-- The tickets of `s` that run on `lane` and are still there in `s'`. -/
def stillRunning (s s' : Inner) (lane : String) : List Ticket :=
  s.tickets.filter (fun t => t.lane = lane ∧ t.state = .running ∧ t.id ∈ s'.tickets.map Ticket.id)

theorem Staged.runningOn {s m : Inner} (h : s.Staged m) (hs : s.Sound) (lane : String) :
    m.runningOn lane = (s.stillRunning m.pump lane).length := by
  have hperm : (m.tickets.filter (fun t => t.lane = lane ∧ t.state = .running)).Perm
      (s.stillRunning m.pump lane) := by
    refine (List.perm_ext_iff_of_nodup (h.sound.tickets_nodup.filter _)
      (hs.tickets_nodup.filter _)).mpr ?_
    intro t
    rw [List.mem_filter, List.mem_filter, pump_ids]
    simp only [decide_eq_true_eq]
    constructor
    · rintro ⟨ht, hlane, hrun⟩
      rcases h.old_or_new t ht with hold | ⟨hwait, -⟩
      · exact ⟨hold, hlane, hrun, List.mem_map_of_mem ht⟩
      · rw [hwait] at hrun
        cases hrun
    · rintro ⟨ht, hlane, hrun, hid⟩
      obtain ⟨u, hu, e⟩ := List.mem_map.mp hid
      rcases h.old_or_new u hu with hold | ⟨-, hnew⟩
      · exact ⟨hs.eq_of_id hold ht e ▸ hu, hlane, hrun⟩
      · exact absurd e.symm (hnew t ht)
  rw [Inner.runningOn, List.countP_eq_length_filter, hperm.length_eq]

end Inner

theorem acceptedFrom_accepted {s : Inner} {a : Acquire} (h : s.accepts a = true) :
    acceptedFrom s [.enqueueWith a] = [a] := by
  simp [acceptedFrom, h]

theorem acceptedFrom_other {s : Inner} {op : Op}
    (h : ∀ a, op = .enqueueWith a → s.accepts a = false) : acceptedFrom s [op] = [] := by
  cases op with
  | enqueueWith a => simp [acceptedFrom, h a rfl]
  | cancel _ => rfl
  | releaseWith _ _ _ => rfl
  | heartbeat _ _ => rfl
  | releaseWindow _ => rfl
  | sweepExpiredAt _ => rfl

/-- A call is an accepted acquire or it is not. -/
theorem accepted_or_other (s : Inner) (op : Op) :
    (∃ a, op = .enqueueWith a ∧ s.accepts a = true) ∨
      ∀ a, op = .enqueueWith a → s.accepts a = false := by
  by_cases h : ∃ a, op = .enqueueWith a ∧ s.accepts a = true
  · exact Or.inl h
  · refine Or.inr (fun a e => ?_)
    by_contra hacc
    exact h ⟨a, e, by simpa using hacc⟩

/-- The lane capacity the code keeps is the one in force. -/
theorem run_capacity (ops : List Op) (lane : String) :
    (run ops).capacity lane = inForce (accepted ops) lane := by
  induction ops using List.reverseRecOn with
  | nil => rfl
  | append_singleton ops op ih =>
    rw [run_concat, accepted_concat]
    rcases accepted_or_other (run ops) op with ⟨a, rfl, hacc⟩ | hother
    · rw [(run_sound ops).capacity_accepted hacc, acceptedFrom_accepted hacc, inForce_concat, ih]
    · rw [(run_sound ops).capacity_other hother, acceptedFrom_other hother, List.append_nil, ih]

/-! ## Admissions -/

/-- An admission leaves its lane within the capacity in force. -/
theorem admitted_within (ops : List Op) (op : Op) (t : Ticket)
    (h : Inner.Admitted (run ops) (run (ops ++ [op])) t) :
    (run (ops ++ [op])).runningOn t.lane ≤ inForce (accepted (ops ++ [op])) t.lane := by
  rw [← run_capacity]
  rw [run_concat] at h ⊢
  obtain ⟨m, -, e, u, hu, rfl⟩ := h.pumped (run_sound ops) ((run_sound ops).step op)
  rw [e]
  exact (Inner.pumped_room hu).2

/-- A lane with as many tickets still running as the capacity in force admits nobody. -/
theorem not_admitted_of_full (ops : List Op) (op : Op) (t : Ticket)
    (hfull : inForce (accepted (ops ++ [op])) t.lane ≤
      ((run ops).stillRunning (run (ops ++ [op])) t.lane).length) :
    ¬ Inner.Admitted (run ops) (run (ops ++ [op])) t := by
  intro h
  rw [← run_capacity] at hfull
  rw [run_concat] at h hfull
  obtain ⟨m, hm, e, u, hu, rfl⟩ := h.pumped (run_sound ops) ((run_sound ops).step op)
  have hroom := (Inner.pumped_room hu).1
  rw [e, Inner.pump_capacity] at hfull
  have hcount := hm.runningOn (run_sound ops) u.lane
  have hlane : u.start.lane = u.lane := rfl
  rw [hlane] at hfull
  omega

/-! ## A lane whose acquires agree -/

theorem Inner.Staged.runningOn_le {s m : Inner} (h : s.Staged m) (hs : s.Sound) (lane : String) :
    m.runningOn lane ≤ s.runningOn lane := by
  rw [h.runningOn hs, Inner.runningOn, List.countP_eq_length_filter]
  have hsub : (s.stillRunning m.pump lane).Sublist
      (s.tickets.filter (fun t => t.lane = lane ∧ t.state = .running)) := by
    refine List.monotone_filter_right _ ?_
    intro t ht
    have ht : t.lane = lane ∧ t.state = .running ∧ t.id ∈ m.pump.tickets.map Ticket.id := by
      simpa using ht
    simp [ht.1, ht.2.1]
  exact hsub.length_le

/-- A call that does not lower a lane's capacity keeps the lane within it. -/
theorem Inner.Sound.runningOn_le {s : Inner} (hs : s.Sound) (op : Op) (lane : String)
    (hle : s.runningOn lane ≤ s.capacity lane)
    (hcap : s.capacity lane ≤ (s.apply op).capacity lane) :
    (s.apply op).runningOn lane ≤ (s.apply op).capacity lane := by
  rcases (hs.step op).quiet_or_staged hs with hq | ⟨m, hm, e⟩
  · rw [hq.runningOn]
    exact hle.trans hcap
  · rw [e, Inner.pump_capacity] at hcap
    rw [e, Inner.pump_runningOn, Inner.pump_capacity]
    refine m.gate.tally_le _ _ lane ?_
    rw [Inner.runningByLane_eq]
    exact (hm.runningOn_le hs lane).trans (hle.trans hcap)

/-- With one bound supplied by every acquire of a lane, the lane's capacity is 1 before the first
and that bound from then on, and the lane stays within it. -/
theorem uniform_lane (lane : String) (n : UInt32) (ops : List Op)
    (h : ∀ a, Op.enqueueWith a ∈ ops → a.lane = lane → a.maxParallel = some n) :
    ((run ops).capacity lane = 1 ∨ (run ops).capacity lane = max n.toNat 1) ∧
      (run ops).runningOn lane ≤ (run ops).capacity lane := by
  induction ops using List.reverseRecOn with
  | nil => exact ⟨Or.inl rfl, Nat.zero_le _⟩
  | append_singleton ops op ih =>
    obtain ⟨hcap, hrun⟩ := ih (fun a ha => h a (List.mem_append_left _ ha))
    have hs := run_sound ops
    rw [run_concat]
    have hafter : (((run ops).apply op).capacity lane = (run ops).capacity lane) ∨
        ((run ops).apply op).capacity lane = max n.toNat 1 := by
      rcases accepted_or_other (run ops) op with ⟨a, rfl, hacc⟩ | hother
      · rw [hs.capacity_accepted hacc]
        by_cases e : a.lane = lane
        · rw [if_pos e, h a (by simp) e]
          exact Or.inr rfl
        · rw [if_neg e]
          exact Or.inl rfl
      · exact Or.inl (hs.capacity_other hother lane)
    have hgrows : (run ops).capacity lane ≤ ((run ops).apply op).capacity lane := by
      rcases hafter with e | e
      · omega
      · have := Nat.le_max_right n.toNat 1
        rcases hcap with e' | e' <;> omega
    refine ⟨?_, hs.runningOn_le op lane hrun hgrows⟩
    rcases hafter with e | e
    · rw [e]
      exact hcap
    · exact Or.inr e

/-! ## Ticket states -/

/-- No call takes a running ticket back to waiting. -/
theorem Inner.Sound.stays_running {s : Inner} (hs : s.Sound) (op : Op) {t t' : Ticket}
    (ht : t ∈ s.tickets) (hrun : t.state = .running) (ht' : t' ∈ (s.apply op).tickets)
    (hid : t'.id = t.id) : t'.state = .running := by
  rcases (hs.step op).quiet_or_staged hs with hq | ⟨m, hm, e⟩
  · obtain ⟨u, hu, e⟩ := hq.mem ht'
    have huid : u.id = t.id := by rw [← hid, e]
    rw [e, hs.eq_of_id hu ht huid]
    exact hrun
  · rw [e] at ht'
    rcases (hm.sound.mem_pump t').mp ht' with ⟨ht', -⟩ | ⟨u, -, rfl⟩
    · rcases hm.old_or_new t' ht' with hold | ⟨-, hnew⟩
      · rw [hs.eq_of_id hold ht hid]
        exact hrun
      · exact absurd hid.symm (hnew t ht)
    · rfl

/-- Every call is an edit that leaves the state of each ticket as it was and brings new tickets in
waiting, followed by a `pump` or not. -/
theorem Inner.Sound.only_pump_admits {s : Inner} (hs : s.Sound) (op : Op) :
    ∃ m : Inner, (s.apply op = m ∨ s.apply op = m.pump) ∧ ∀ t ∈ m.tickets,
      (∃ u ∈ s.tickets, u.id = t.id ∧ u.state = t.state) ∨
        (t.state = .waiting ∧ ∀ u ∈ s.tickets, u.id ≠ t.id) := by
  rcases (hs.step op).quiet_or_staged hs with hq | ⟨m, hm, e⟩
  · refine ⟨s.apply op, Or.inl rfl, ?_⟩
    intro t ht
    obtain ⟨u, hu, e⟩ := hq.mem ht
    exact Or.inl ⟨u, hu, by rw [e], by rw [e]⟩
  · refine ⟨m, Or.inr e, ?_⟩
    intro t ht
    rcases hm.old_or_new t ht with hold | hnew
    · exact Or.inl ⟨t, hold, rfl, rfl⟩
    · exact Or.inr hnew

/-- Capacity safety of the queue. -/
theorem capacity_safety :
    (∀ ops op t, Inner.Admitted (run ops) (run (ops ++ [op])) t →
      (run (ops ++ [op])).runningOn t.lane ≤ inForce (accepted (ops ++ [op])) t.lane) ∧
    (∀ ops lane (n : UInt32),
      (∀ a, Op.enqueueWith a ∈ ops → a.lane = lane → a.maxParallel = some n) →
      (run ops).runningOn lane ≤ max n.toNat 1) ∧
    (∀ ops op t, inForce (accepted (ops ++ [op])) t.lane ≤
        ((run ops).stillRunning (run (ops ++ [op])) t.lane).length →
      ¬ Inner.Admitted (run ops) (run (ops ++ [op])) t) ∧
    (∀ ops op, ∃ m : Inner, (run (ops ++ [op]) = m ∨ run (ops ++ [op]) = m.pump) ∧
      ∀ t ∈ m.tickets, (∃ u ∈ (run ops).tickets, u.id = t.id ∧ u.state = t.state) ∨
        (t.state = .waiting ∧ ∀ u ∈ (run ops).tickets, u.id ≠ t.id)) ∧
    (∀ ops op, ∀ t ∈ (run ops).tickets, t.state = .running →
      ∀ t' ∈ (run (ops ++ [op])).tickets, t'.id = t.id → t'.state = .running) := by
  refine ⟨admitted_within, ?_, not_admitted_of_full, ?_, ?_⟩
  · intro ops lane n h
    obtain ⟨hcap, hrun⟩ := uniform_lane lane n ops h
    refine hrun.trans ?_
    rcases hcap with e | e
    · rw [e]
      exact Nat.le_max_right _ _
    · exact e.le
  · intro ops op
    rw [run_concat]
    exact (run_sound ops).only_pump_admits op
  · intro ops op t ht hrun t' ht' hid
    rw [run_concat] at ht'
    exact (run_sound ops).stays_running op ht hrun ht' hid

end Haruspex.InferenceQueue
