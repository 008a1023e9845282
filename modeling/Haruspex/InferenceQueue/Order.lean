import Haruspex.InferenceQueue.Capacity

/-! Admission order. The waiting tickets of a lane stand with the `front` ones first, each group in
the order its acquires were accepted; only a background ticket is ever passed over, and only for a
foreground one. -/
namespace Haruspex.InferenceQueue
open AdmissionScan
set_option autoImplicit false

/-- The place of a request's latest acquire among the accepted ones, counted from 1; 0 if it has
none. -/
def enqueueOrder (acquires : List Acquire) (id : String) : ℕ :=
  acquires.length - acquires.reverse.findIdx (fun a => a.reqId = id)

theorem enqueueOrder_le (as : List Acquire) (id : String) : enqueueOrder as id ≤ as.length :=
  Nat.sub_le _ _

theorem enqueueOrder_concat (as : List Acquire) (a : Acquire) : enqueueOrder (as ++ [a]) =
    Function.update (enqueueOrder as) a.reqId (as.length + 1) := by
  funext id
  rw [enqueueOrder, List.reverse_append, List.reverse_singleton, List.singleton_append,
    List.findIdx_cons, List.length_append, List.length_singleton]
  by_cases e : id = a.reqId
  · subst e
    simp
  · rw [Function.update_of_ne e, enqueueOrder, decide_eq_false (Ne.symm e), cond_false]
    omega

/-- What `t` standing ahead of `u` means: if both wait on one lane, `t` is the `front` one, or they
are of one group and `t` was enqueued first. -/
def InTurn (order : String → ℕ) (t u : Ticket) : Prop :=
  t.lane = u.lane → t.state = .waiting → u.state = .waiting →
    (u.front = true → t.front = true) ∧ (t.front = u.front → order t.id < order u.id)

namespace Inner

/-- Tickets stand in turn, and no foreground ticket runs that was enqueued after one of its group
that still waits. -/
structure Ordered (order : String → ℕ) (s : Inner) : Prop where
  waiting : s.tickets.Pairwise (InTurn order)
  running : ∀ t ∈ s.tickets, ∀ u ∈ s.tickets, t.priority = .foreground →
    u.priority = .foreground → t.lane = u.lane → t.front = u.front → t.state = .running →
    u.state = .waiting → order t.id < order u.id

/-- Request `x`'s ticket stands ahead of `y`'s in the vector. -/
def Ahead (s : Inner) (x y : String) : Prop := [x, y].Sublist (s.tickets.map Ticket.id)

/-! ## What a call does to the order -/

theorem Ordered.quiet {order : String → ℕ} {s s' : Inner} (h : s.Ordered order)
    (hq : s.Quiet s') : s'.Ordered order := by
  let unleased : Ticket → Ticket := fun t => { t with leaseExpiresAt := 0 }
  have hmap : s'.tickets.map unleased = s.tickets.map unleased := hq.map_eq _ (fun _ _ => rfl)
  constructor
  · have hw : (s.tickets.map unleased).Pairwise (InTurn order) := List.pairwise_map.mpr h.waiting
    rw [← hmap] at hw
    exact List.Pairwise.of_map unleased (fun _ _ h => h) hw
  · intro t' ht' u' hu'
    obtain ⟨t, ht, et⟩ := hq.mem ht'
    obtain ⟨u, hu, eu⟩ := hq.mem hu'
    rw [et, eu]
    exact h.running t ht u hu

theorem Ordered.leaving {order : String → ℕ} {s : Inner} (h : s.Ordered order)
    (keep : Ticket → Bool) (rs : List Reservation) : (s.leaving keep rs).Ordered order := by
  constructor
  · rw [leaving_tickets]
    exact h.waiting.sublist List.filter_sublist
  · intro t ht u hu
    rw [leaving_tickets] at ht hu
    exact h.running t (List.mem_filter.mp ht).1 u (List.mem_filter.mp hu).1

theorem Ordered.enqueued {order : String → ℕ} {s : Inner} (h : s.Ordered order) (hs : s.Sound)
    {a : Acquire} (hacc : s.accepts a = true) {n : ℕ} (hn : ∀ t ∈ s.tickets, order t.id < n) :
    (s.enqueued a).2.Ordered (Function.update order a.reqId n) := by
  obtain ⟨hfresh, -⟩ := (s.accepts_iff a).mp hacc
  have hself : Function.update order a.reqId n a.ticket.id = n := Function.update_self _ _ _
  have hold : ∀ t ∈ s.tickets, Function.update order a.reqId n t.id = order t.id := fun t ht =>
    Function.update_of_ne (hfresh t ht) _ _
  obtain ⟨pre, post, hsplit, hins, hback, hfront⟩ := s.insertTicket_split a
  have hmem := hs.mem_enqueued hacc
  have hpre : ∀ t ∈ pre, t ∈ s.tickets := fun t ht => hsplit ▸ List.mem_append_left _ ht
  have hpost : ∀ t ∈ post, t ∈ s.tickets := fun t ht => hsplit ▸ List.mem_append_right _ ht
  have hwaiting : (pre ++ post).Pairwise (InTurn (Function.update order a.reqId n)) := by
    rw [← hsplit]
    refine h.waiting.imp_of_mem ?_
    intro t u ht hu htu
    rw [InTurn, hold t ht, hold u hu]
    exact htu
  obtain ⟨hwpre, hwpost, hcross⟩ := List.pairwise_append.mp hwaiting
  -- the tickets before the new one are not ordinary waiters of its lane if it is a `front` one
  have hbefore : ∀ t ∈ pre, InTurn (Function.update order a.reqId n) t a.ticket := by
    intro t ht hlane hwait _
    rw [hself, hold t (hpre t ht)]
    refine ⟨?_, fun _ => hn t (hpre t ht)⟩
    intro haf
    have hno := (hfront haf).1 t ht
    cases htf : t.front with
    | true => rfl
    | false => exact absurd ⟨hlane, hwait, htf⟩ hno
  -- those behind a `front` ticket come after an ordinary waiter, so they are ordinary themselves
  have hafter : ∀ u ∈ post, InTurn (Function.update order a.reqId n) a.ticket u := by
    intro u hu hlane _ hwait
    cases haf : a.admission.front with
    | false =>
      rw [hback haf] at hu
      cases hu
    | true =>
      have huf : u.front = false := by
        cases post with
        | nil => cases hu
        | cons first rest =>
          obtain ⟨hflane, hfwait, hford⟩ := (hfront haf).2 first rest rfl
          rcases List.mem_cons.mp hu with rfl | hu
          · exact hford
          · have hturn := (List.pairwise_cons.mp hwpost).1 u hu (hflane.trans hlane) hfwait hwait
            by_contra hne
            have := hturn.1 (by simpa using hne)
            rw [hford] at this
            cases this
      have htick : a.ticket.front = true := haf
      rw [htick, huf]
      exact ⟨fun e => (by cases e), fun e => (by cases e)⟩
  constructor
  · rw [enqueued_eq s a (hs.sender_none hfresh), hins]
    refine List.pairwise_append.mpr ⟨hwpre, List.pairwise_cons.mpr ⟨hafter, hwpost⟩, ?_⟩
    intro t ht u hu
    rcases List.mem_cons.mp hu with rfl | hu
    · exact hbefore t ht
    · exact hcross t ht u hu
  · intro t ht u hu htp hup hlane hgroup hrun hwait
    rcases (hmem t).mp ht with rfl | ht
    · cases hrun
    · rw [hold t ht]
      rcases (hmem u).mp hu with rfl | hu
      · rw [hself]
        exact hn t ht
      · rw [hold u hu]
        exact h.running t ht u hu htp hup hlane hgroup hrun hwait

/-- A ticket that waits after a pump was there before it, at the same place. -/
theorem getElem?_of_waiting (s : Inner) {i : ℕ} {u : Ticket} (hu : s.pump.tickets[i]? = some u)
    (hwait : u.state = .waiting) : s.tickets[i]? = some u := by
  have hlen := s.pump_outcome.length_eq
  obtain ⟨hi, e⟩ := List.getElem?_eq_some_iff.mp hu
  have hi' : i < s.tickets.length := by omega
  rcases s.pump_outcome.get hi' hi with h | ⟨-, -, h⟩
  · rw [List.getElem?_eq_some_iff]
    exact ⟨hi', h.symm.trans e⟩
  · have hrun : u.state = .running := by
      rw [← e]
      exact congrArg Ticket.state h
    rw [hwait] at hrun
    cases hrun

/-- A ticket that runs after a pump ran before it, or waited at the same place. -/
theorem getElem?_of_running (s : Inner) {j : ℕ} {t : Ticket} (ht : s.pump.tickets[j]? = some t) :
    s.tickets[j]? = some t ∨
      ∃ t₀, s.tickets[j]? = some t₀ ∧ t₀.state = .waiting ∧ t = t₀.start := by
  have hlen := s.pump_outcome.length_eq
  obtain ⟨hj, e⟩ := List.getElem?_eq_some_iff.mp ht
  have hj' : j < s.tickets.length := by omega
  have hget : s.tickets[j]? = some s.tickets[j] := List.getElem?_eq_getElem hj'
  rcases s.pump_outcome.get hj' hj with h | ⟨hidle, -, h⟩
  · left
    rw [hget, ← e]
    exact congrArg some h.symm
  · right
    refine ⟨s.tickets[j], hget, ?_, e.symm.trans h⟩
    cases hs : s.tickets[j].state with
    | waiting => rfl
    | running => simp [gate, hs] at hidle

/-- Whom a pump passes over is in the background. -/
theorem held_of_passed (s : Inner) {i j : ℕ} (hij : i < j) {t u : Ticket}
    (hu : s.pump.tickets[i]? = some u) (hwait : u.state = .waiting) (ht : s.tickets[j]? = some t)
    (ht' : s.pump.tickets[j]? = some t.start) (htwait : t.state = .waiting)
    (hlane : t.lane = u.lane) : s.gate.held u = true := by
  have hu₀ := s.getElem?_of_waiting hu hwait
  rw [pump_tickets] at hu ht'
  exact s.gate.held_of_overtaken s.runningByLane s.tickets i j hij hu₀ hu (by simp [gate, hwait])
    ht ht' (by simp [gate, htwait]) (by simp [gate, Ticket.start]) hlane

theorem Ordered.pump {order : String → ℕ} {s : Inner} (h : s.Ordered order) :
    s.pump.Ordered order := by
  have hpair := List.pairwise_iff_getElem.mp h.waiting
  have hturn : ∀ (i j : ℕ) (t u : Ticket), i < j → s.tickets[i]? = some t → s.tickets[j]? = some u →
      InTurn order t u := by
    intro i j t u hij ht hu
    obtain ⟨hi, rfl⟩ := List.getElem?_eq_some_iff.mp ht
    obtain ⟨hj, rfl⟩ := List.getElem?_eq_some_iff.mp hu
    exact hpair i j hi hj hij
  constructor
  · rw [List.pairwise_iff_getElem]
    intro i j hi hj hij hlane hti huj
    have ht := s.getElem?_of_waiting (List.getElem?_eq_getElem hi) hti
    have hu := s.getElem?_of_waiting (List.getElem?_eq_getElem hj) huj
    exact hturn i j _ _ hij ht hu hlane hti huj
  · intro t ht u hu htp hup hlane hgroup hrun hwait
    obtain ⟨j, hj, hjt⟩ := List.mem_iff_getElem.mp ht
    obtain ⟨i, hi, hiu⟩ := List.mem_iff_getElem.mp hu
    have ht' : s.pump.tickets[j]? = some t := List.getElem?_eq_some_iff.mpr ⟨hj, hjt⟩
    have hu' : s.pump.tickets[i]? = some u := List.getElem?_eq_some_iff.mpr ⟨hi, hiu⟩
    have hu₀ := s.getElem?_of_waiting hu' hwait
    rcases s.getElem?_of_running ht' with ht₀ | ⟨t₀, ht₀, ht₀wait, rfl⟩
    · exact h.running t (List.mem_of_getElem? ht₀) u (List.mem_of_getElem? hu₀) htp hup hlane hgroup
        hrun hwait
    · rcases Nat.lt_trichotomy i j with hij | hij | hij
      · have hheld := s.held_of_passed hij hu' hwait ht₀ ht' ht₀wait hlane
        simp [gate, hup] at hheld
      · subst hij
        rw [hu'] at ht'
        rw [Option.some.inj ht'] at hwait
        cases hwait
      · exact (hturn j i t₀ u hij ht₀ hu₀ hlane ht₀wait hwait).2 hgroup

/-! ## Overtaking -/

theorem Sound.ahead_kept {s : Inner} (hs : s.Sound) (op : Op) {x y : String} (h : s.Ahead x y)
    (hx : x ∈ (s.apply op).tickets.map Ticket.id) (hy : y ∈ (s.apply op).tickets.map Ticket.id) :
    (s.apply op).Ahead x y := by
  have hstep := hs.step op
  generalize s.apply op = s' at hstep hx hy
  cases hstep with
  | quiet hq _ =>
    rw [Ahead, hq.map_eq Ticket.id (fun _ _ => rfl)]
    exact h
  | @join a hacc =>
    obtain ⟨pre, post, hsplit, hins, -, -⟩ := s.insertTicket_split a
    rw [Ahead, pump_ids, enqueued_eq s a (hs.sender_none ((s.accepts_iff a).mp hacc).1), hins]
    refine h.trans (List.Sublist.map _ ?_)
    rw [hsplit]
    exact (List.sublist_cons_self _ _).append_left _
  | leave keep rs _ =>
    rw [pump_ids, leaving_tickets] at hx hy
    obtain ⟨pair, hpair, epair⟩ := List.sublist_map_iff.mp h
    have hkept : pair.filter keep = pair := by
      rw [List.filter_eq_self]
      intro v hv
      have hvid : v.id ∈ (s.tickets.filter keep).map Ticket.id := by
        have hin : v.id ∈ [x, y] := epair ▸ List.mem_map_of_mem hv
        rcases List.mem_cons.mp hin with e | hin
        · rw [e]
          exact hx
        · rw [List.mem_singleton.mp hin]
          exact hy
      obtain ⟨w, hw, e⟩ := List.mem_map.mp hvid
      obtain ⟨hw, hk⟩ := List.mem_filter.mp hw
      rw [← hs.eq_of_id hw (hpair.subset hv) e]
      exact hk
    rw [Ahead, pump_ids, leaving_tickets, epair, ← hkept]
    exact (hpair.filter keep).map _

theorem Sound.ahead_getElem? {s : Inner} (hs : s.Sound) {t u : Ticket} (ht : t ∈ s.tickets)
    (hu : u ∈ s.tickets) (h : s.Ahead u.id t.id) :
    ∃ i j : ℕ, i < j ∧ s.tickets[i]? = some u ∧ s.tickets[j]? = some t := by
  obtain ⟨r₁, r₂, e, hur, htr⟩ := List.cons_sublist_iff.mp h
  obtain ⟨l₁, l₂, el, rfl, rfl⟩ := List.map_eq_append_iff.mp e
  obtain ⟨u', hu', eu⟩ := List.mem_map.mp hur
  obtain ⟨t', ht', et⟩ := List.mem_map.mp (List.singleton_sublist.mp htr)
  have hu'' : u' = u := hs.eq_of_id (by rw [el]; exact List.mem_append_left _ hu') hu eu
  have ht'' : t' = t := hs.eq_of_id (by rw [el]; exact List.mem_append_right _ ht') ht et
  subst hu'' ht''
  obtain ⟨i, hi, ei⟩ := List.mem_iff_getElem.mp hu'
  obtain ⟨j, hj, ej⟩ := List.mem_iff_getElem.mp ht'
  refine ⟨i, l₁.length + j, by omega, ?_, ?_⟩
  · rw [el, List.getElem?_append_left hi, List.getElem?_eq_getElem hi, ei]
  · rw [el, List.getElem?_append_right (by omega), Nat.add_sub_cancel_left,
      List.getElem?_eq_getElem hj, ej]

/-- A ticket is admitted past a waiting one of its lane only if that one is in the background and
the admitted one is not. -/
theorem Sound.overtaken {s : Inner} (hs : s.Sound) (op : Op) {t u : Ticket}
    (hadm : Admitted s (s.apply op) t) (hu : u ∈ (s.apply op).tickets) (hwait : u.state = .waiting)
    (hlane : u.lane = t.lane) (hahead : (s.apply op).Ahead u.id t.id) :
    u.priority = .background ∧ t.priority = .foreground := by
  obtain ⟨m, hm, e, t₀, ht₀, rfl⟩ := hadm.pumped hs (hs.step op)
  obtain ⟨i, j, hij, hui, htj⟩ := (hs.apply op).ahead_getElem? hadm.mem hu hahead
  rw [e] at hui htj
  obtain ⟨ht₀mem, ht₀wait⟩ := mem_pumped ht₀
  have htj₀ : m.tickets[j]? = some t₀ := by
    rcases m.getElem?_of_running htj with h | ⟨v, hv, -, ev⟩
    · have hid : t₀.start.id = t₀.id := rfl
      rw [hm.sound.eq_of_id (List.mem_of_getElem? h) ht₀mem hid] at h
      exact h
    · have hid : v.id = t₀.id := (congrArg Ticket.id ev).symm
      rw [hm.sound.eq_of_id (List.mem_of_getElem? hv) ht₀mem hid] at hv
      exact hv
  have hheld := m.held_of_passed hij hui hwait htj₀ htj ht₀wait hlane.symm
  have hlane' : u.lane = t₀.lane := hlane
  have hback : u.priority = .background ∧ m.laneBusyForBackground u.lane = true := by
    simpa [gate] using hheld
  refine ⟨hback.1, ?_⟩
  cases hp : t₀.priority with
  | foreground => exact hp
  | background =>
    obtain ⟨-, -, hfree⟩ := m.gate.idle_of_started _ _ ht₀
    rw [hlane'] at hback
    simp [gate, hp, hback.2] at hfree

end Inner

/-! ## Every run -/

theorem run_ordered (ops : List Op) : (run ops).Ordered (enqueueOrder (accepted ops)) := by
  induction ops using List.reverseRecOn with
  | nil => exact ⟨List.Pairwise.nil, fun t ht => by cases ht⟩
  | append_singleton ops op ih =>
    have hs := run_sound ops
    rw [run_concat, accepted_concat]
    rcases accepted_or_other (run ops) op with ⟨a, rfl, hacc⟩ | hother
    · rw [acceptedFrom_accepted hacc, enqueueOrder_concat, Inner.apply_accepted hacc]
      refine (ih.enqueued hs hacc ?_).pump
      intro t _
      exact Nat.lt_succ_of_le (enqueueOrder_le _ _)
    · rw [acceptedFrom_other hother, List.append_nil]
      have hstep := hs.step op
      generalize (run ops).apply op = s' at hstep
      cases hstep with
      | quiet hq _ => exact ih.quiet hq
      | @join a hacc =>
        rw [hother a rfl] at hacc
        cases hacc
      | leave keep rs _ => exact (ih.leaving keep rs).pump

/-- Admission order of the queue. -/
theorem admission_order :
    (∀ ops, (run ops).tickets.Pairwise (InTurn (enqueueOrder (accepted ops)))) ∧
    (∀ ops op t u, Inner.Admitted (run ops) (run (ops ++ [op])) t →
      u ∈ (run (ops ++ [op])).tickets → u.state = .waiting → u.lane = t.lane →
      (run ops).Ahead u.id t.id ∨ (run (ops ++ [op])).Ahead u.id t.id →
      u.priority = .background ∧ t.priority = .foreground) ∧
    ∀ ops op t u, Inner.Admitted (run ops) (run (ops ++ [op])) t →
      u ∈ (run (ops ++ [op])).tickets → t.priority = .foreground → u.priority = .foreground →
      t.lane = u.lane → t.front = u.front →
      enqueueOrder (accepted (ops ++ [op])) u.id < enqueueOrder (accepted (ops ++ [op])) t.id →
      u.state = .running := by
  refine ⟨fun ops => (run_ordered ops).waiting, ?_, ?_⟩
  · intro ops op t u hadm hu hwait hlane hahead
    rw [run_concat] at hadm hu hahead
    refine (run_sound ops).overtaken op hadm hu hwait hlane (hahead.elim ?_ id)
    intro h
    exact (run_sound ops).ahead_kept op h (List.mem_map_of_mem hu) (List.mem_map_of_mem hadm.mem)
  · intro ops op t u hadm hu htp hup hlane hgroup hlater
    cases hstate : u.state with
    | running => rfl
    | waiting =>
      have hlt := (run_ordered (ops ++ [op])).running t hadm.mem u hu htp hup hlane hgroup hadm.runs
        hstate
      omega

end Haruspex.InferenceQueue
