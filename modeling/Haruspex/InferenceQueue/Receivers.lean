import Haruspex.InferenceQueue.Steps
import Mathlib.Data.List.Induction

/-! Every acquire is answered once. The receiver an acquire returns follows its ticket: nothing is
seen on it while the ticket waits, the value arrives in the call that starts the ticket, and the
channel closes in the call that takes the ticket out before that. -/
namespace Haruspex.InferenceQueue
set_option autoImplicit false

namespace Inner

/-- What the receiver of a request should have seen, from where the request's ticket is. -/
def answer (s : Inner) (reqId : String) : Oneshot :=
  match s.tickets.find? (fun t => t.id = reqId) with
  | none => .closed
  | some t => if t.state = .waiting then .pending else .sent

/-- What the receiver of a request should have seen after more calls: the first answer that is
not to wait. -/
def fate (s : Inner) (reqId : String) : List Op → Oneshot
  | [] => s.answer reqId
  | op :: ops =>
    if s.answer reqId = .pending then fate (s.apply op) reqId ops else s.answer reqId

theorem Sound.find_id {s : Inner} (hs : s.Sound) {t : Ticket} (ht : t ∈ s.tickets) :
    s.tickets.find? (fun u => u.id = t.id) = some t := by
  cases hf : s.tickets.find? (fun u => u.id = t.id) with
  | none =>
    have := List.find?_eq_none.mp hf t ht
    simp at this
  | some u =>
    have hp : u.id = t.id := by simpa using List.find?_some hf
    rw [hs.eq_of_id (List.mem_of_find?_eq_some hf) ht hp]

theorem Sound.answer_waiting {s : Inner} (hs : s.Sound) {t : Ticket} (ht : t ∈ s.tickets)
    (hwait : t.state = .waiting) : s.answer t.id = .pending := by
  rw [answer, hs.find_id ht]
  exact if_pos hwait

theorem Sound.answer_running {s : Inner} (hs : s.Sound) {t : Ticket} (ht : t ∈ s.tickets)
    (hrun : t.state = .running) : s.answer t.id = .sent := by
  rw [answer, hs.find_id ht]
  exact if_neg (by rw [hrun]; decide)

theorem answer_absent {s : Inner} {reqId : String} (h : ∀ t ∈ s.tickets, t.id ≠ reqId) :
    s.answer reqId = .closed := by
  have hfind : s.tickets.find? (fun t => t.id = reqId) = none := by
    rw [List.find?_eq_none]
    simpa using h
  rw [answer, hfind]

theorem answer_pending {s : Inner} {reqId : String} (h : s.answer reqId = .pending) :
    ∃ t ∈ s.tickets, t.id = reqId ∧ t.state = .waiting := by
  rw [answer] at h
  cases hf : s.tickets.find? (fun t => t.id = reqId) with
  | none =>
    rw [hf] at h
    cases h
  | some t =>
    rw [hf] at h
    have hid : t.id = reqId := by simpa using List.find?_some hf
    refine ⟨t, List.mem_of_find?_eq_some hf, hid, ?_⟩
    by_contra hne
    have h : (if t.state = .waiting then Oneshot.pending else .sent) = .pending := h
    rw [if_neg hne] at h
    cases h

theorem Sound.answer_sent_iff {s : Inner} (hs : s.Sound) (reqId : String) :
    s.answer reqId = .sent ↔ ∃ t ∈ s.tickets, t.id = reqId ∧ t.state = .running := by
  constructor
  · intro h
    by_cases hex : ∃ t ∈ s.tickets, t.id = reqId
    · obtain ⟨t, ht, rfl⟩ := hex
      refine ⟨t, ht, rfl, ?_⟩
      cases hstate : t.state with
      | running => rfl
      | waiting =>
        rw [hs.answer_waiting ht hstate] at h
        cases h
    · rw [answer_absent (fun t ht e => hex ⟨t, ht, e⟩)] at h
      cases h
  · intro ⟨t, ht, hid, hrun⟩
    rw [← hid]
    exact hs.answer_running ht hrun

theorem answer_closed_iff (s : Inner) (reqId : String) :
    s.answer reqId = .closed ↔ ∀ t ∈ s.tickets, t.id ≠ reqId := by
  refine ⟨?_, answer_absent⟩
  intro h t ht hid
  rw [answer] at h
  cases hf : s.tickets.find? (fun t => t.id = reqId) with
  | none =>
    have := List.find?_eq_none.mp hf t ht
    simp [hid] at this
  | some u =>
    rw [hf] at h
    have h : (if u.state = .waiting then Oneshot.pending else .sent) = .closed := h
    split at h <;> cases h

/-! ## Channels -/

/-- Nobody holds the sender of channel `k`. -/
def Unsent (s : Inner) (k : ℕ) : Prop := ∀ id, s.senders id ≠ some k

theorem takeSender_oneshot (s : Inner) (id : String) (seen : Oneshot) {k : ℕ}
    (h : s.senders id ≠ some k) : (s.takeSender id seen).oneshots[k]? = s.oneshots[k]? := by
  unfold takeSender
  split
  · rfl
  · rename_i tx htx
    have hne : tx ≠ k := fun e => h (by rw [htx, e])
    exact List.getElem?_set_ne hne

theorem Unsent.takeSender {s : Inner} {k : ℕ} (h : s.Unsent k) (id : String) (seen : Oneshot) :
    (s.takeSender id seen).Unsent k := by
  intro id'
  rw [takeSender_senders]
  by_cases e : id' = id
  · rw [e, Function.update_self]
    exact fun e => by cases e
  · rw [Function.update_of_ne e]
    exact h id'

theorem Unsent.takeSenders {s : Inner} {k : ℕ} (h : s.Unsent k) (ids : List String)
    (seen : Oneshot) : (s.takeSenders ids seen).Unsent k ∧
      (s.takeSenders ids seen).oneshots[k]? = s.oneshots[k]? := by
  induction ids generalizing s with
  | nil => exact ⟨h, rfl⟩
  | cons id ids ih =>
    obtain ⟨hun, hget⟩ := ih (h.takeSender id seen)
    exact ⟨hun, hget.trans (s.takeSender_oneshot id seen (h id))⟩

/-- Taking senders that are not channel `k`'s leaves it alone. -/
theorem Wired.takeSenders_other {s : Inner} (h : s.Wired) {ids : List String} {seen : Oneshot}
    (hseen : seen ≠ .pending) {id : String} {k : ℕ} (hk : s.senders id = some k) (hid : id ∉ ids) :
    (s.takeSenders ids seen).senders id = some k ∧
      (s.takeSenders ids seen).oneshots[k]? = some .pending := by
  have hsender : (s.takeSenders ids seen).senders id = some k := by
    rw [takeSenders_senders, if_neg hid]
    exact hk
  exact ⟨hsender, (h.takeSenders ids hseen).pending_of_sender id k hsender⟩

/-- Taking channel `k`'s sender leaves on it what the receiver has seen. -/
theorem Wired.takeSenders_self {s : Inner} (h : s.Wired) {ids : List String} {seen : Oneshot}
    (hseen : seen ≠ .pending) {id : String} {k : ℕ} (hk : s.senders id = some k) (hid : id ∈ ids) :
    (s.takeSenders ids seen).Unsent k ∧
      (s.takeSenders ids seen).oneshots[k]? = some seen := by
  induction ids generalizing s with
  | nil => cases hid
  | cons first ids ih =>
    by_cases e : first = id
    · subst e
      have hun : (s.takeSender first seen).Unsent k := by
        intro id' hid'
        rw [takeSender_senders] at hid'
        by_cases e : id' = first
        · rw [e, Function.update_self] at hid'
          cases hid'
        · rw [Function.update_of_ne e] at hid'
          exact e (h.inj id' first k hid' hk)
      have hget : (s.takeSender first seen).oneshots[k]? = some seen := by
        have hlt := (List.getElem?_eq_some_iff.mp (h.pending_of_sender first k hk)).1
        rw [Inner.takeSender, hk]
        exact List.getElem?_set_self hlt
      obtain ⟨hun', hget'⟩ := hun.takeSenders ids seen
      exact ⟨hun', hget'.trans hget⟩
    · have hid : id ∈ ids := (List.mem_cons.mp hid).resolve_left (Ne.symm e)
      refine ih (h.takeSender first hseen) ?_ hid
      rw [takeSender_senders, Function.update_of_ne (Ne.symm e)]
      exact hk

theorem Wired.unsent {s : Inner} (h : s.Wired) {k : ℕ} (hk : s.oneshots[k]? ≠ some .pending) :
    s.Unsent k := fun id hid => hk (h.pending_of_sender id k hid)

/-! ## Pump -/

theorem Unsent.pump {s : Inner} {k : ℕ} (h : s.Unsent k) :
    s.pump.oneshots[k]? = s.oneshots[k]? := by
  have hun : { s with tickets := s.gate.scan s.runningByLane s.tickets }.Unsent k := h
  rw [pump_eq, loopState]
  exact (hun.takeSenders _ _).2

/-- Channel `k` answers request `reqId`: what its receiver has seen is the request's answer, and
while that is to wait the sender is held for the request. -/
structure Answers (s : Inner) (reqId : String) (k : ℕ) : Prop where
  seen : s.oneshots[k]? = some (s.answer reqId)
  sender : s.answer reqId = .pending → s.senders reqId = some k

/-- A receiver that is open when `pump` is called is open after it if its ticket waits on, and has
the value if its ticket starts. -/
theorem Sound.pump_answers {s : Inner} (hs : s.Sound) {id : String} {k : ℕ}
    (hk : s.senders id = some k) : s.pump.Answers id k := by
  obtain ⟨t, ht, rfl, hwait⟩ := (hs.sender_iff id).mp (by rw [hk]; rfl)
  have hwired : { s with tickets := s.gate.scan s.runningByLane s.tickets }.Wired :=
    hs.wired.of_eq rfl rfl
  have hstate := s.pump_eq
  rw [loopState] at hstate
  by_cases hp : t ∈ s.pumped
  · have hmem : t.start ∈ s.pump.tickets := (hs.mem_pump _).mpr (Or.inr ⟨t, hp, rfl⟩)
    have hans : s.pump.answer t.start.id = .sent := hs.pump.answer_running hmem rfl
    have hans : s.pump.answer t.id = .sent := hans
    refine ⟨?_, fun h => by rw [hans] at h; cases h⟩
    rw [hans, hstate]
    exact (hwired.takeSenders_self (by decide) hk (List.mem_map_of_mem hp)).2
  · have hmem : t ∈ s.pump.tickets := (hs.mem_pump _).mpr (Or.inl ⟨ht, hp⟩)
    have hid : t.id ∉ s.pumped.map Ticket.id := fun h => hp ((hs.mem_pumped_ids ht).mp h)
    have hsent : Oneshot.sent ≠ .pending := by decide
    have htaken := hwired.takeSenders_other hsent hk hid
    rw [← hstate] at htaken
    refine ⟨?_, fun _ => htaken.1⟩
    rw [hs.pump.answer_waiting hmem hwait]
    exact htaken.2

/-! ## One call -/

/-- What has been seen on a receiver stays. -/
theorem Sound.resolved_stays {s : Inner} (hs : s.Sound) (op : Op) {k : ℕ} {seen : Oneshot}
    (hk : s.oneshots[k]? = some seen) (hseen : seen ≠ .pending) :
    (s.apply op).oneshots[k]? = some seen := by
  have hun : s.Unsent k := hs.wired.unsent (by rw [hk]; exact fun e => hseen (Option.some.inj e))
  have hstep := hs.step op
  generalize s.apply op = s' at hstep
  cases hstep with
  | quiet hq _ =>
    rw [hq.oneshots]
    exact hk
  | @join a hacc =>
    have hlt := (List.getElem?_eq_some_iff.mp hk).1
    have heq := enqueued_eq s a (hs.sender_none ((s.accepts_iff a).mp hacc).1)
    have hun' : (s.enqueued a).2.Unsent k := by
      intro id
      rw [heq]
      dsimp only
      by_cases e : id = a.reqId
      · rw [e, Function.update_self]
        intro h
        have := Option.some.inj h
        omega
      · rw [Function.update_of_ne e]
        exact hun id
    rw [hun'.pump, heq]
    dsimp only
    rw [List.getElem?_append_left hlt]
    exact hk
  | leave keep rs _ =>
    have htaken := Unsent.takeSenders
      (s := { s with tickets := s.tickets.filter keep, reservations := rs }) hun
      ((s.tickets.filter (fun t => !keep t)).map Ticket.id) .closed
    have hleft : (s.leaving keep rs).Unsent k ∧
        (s.leaving keep rs).oneshots[k]? = s.oneshots[k]? := htaken
    rw [hleft.1.pump, hleft.2]
    exact hk

/-- A receiver that is open is open after a call, has the value, or is closed, as its ticket waits
on, starts or goes. -/
theorem Sound.apply_answers {s : Inner} (hs : s.Sound) (op : Op) {id : String} {k : ℕ}
    (hk : s.senders id = some k) : (s.apply op).Answers id k := by
  obtain ⟨t, ht, rfl, hwait⟩ := (hs.sender_iff id).mp (by rw [hk]; rfl)
  have hstep := hs.step op
  generalize s.apply op = s' at hstep
  cases hstep with
  | quiet hq _ =>
    obtain ⟨t', ht', e⟩ := hq.mem_after ht
    have hid : t'.id = t.id := by rw [e]
    have hwait' : t'.state = .waiting := by
      rw [e]
      exact hwait
    have hans := (hq.sound hs).answer_waiting ht' hwait'
    rw [hid] at hans
    constructor
    · rw [hans, hq.oneshots]
      exact hs.wired.pending_of_sender _ k hk
    · intro _
      rw [hq.senders]
      exact hk
  | @join a hacc =>
    have hfresh := ((s.accepts_iff a).mp hacc).1
    refine (hs.enqueued a hfresh).pump_answers ?_
    rw [enqueued_eq s a (hs.sender_none hfresh)]
    dsimp only
    rw [Function.update_of_ne (hfresh t ht)]
    exact hk
  | leave keep rs _ =>
    have hwired : { s with tickets := s.tickets.filter keep, reservations := rs }.Wired :=
      hs.wired.of_eq rfl rfl
    cases hkeep : keep t with
    | true =>
      have hid : t.id ∉ (s.tickets.filter (fun t => !keep t)).map Ticket.id := by
        rw [hs.mem_gone keep ht, hkeep]
        decide
      exact (hs.leaving keep rs).pump_answers
        (hwired.takeSenders_other (by decide) hk hid).1
    | false =>
      have hid : t.id ∈ (s.tickets.filter (fun t => !keep t)).map Ticket.id :=
        (hs.mem_gone keep ht).mpr hkeep
      have hclosed : Oneshot.closed ≠ .pending := by decide
      have hleft : (s.leaving keep rs).Unsent k ∧
          (s.leaving keep rs).oneshots[k]? = some .closed := hwired.takeSenders_self hclosed hk hid
      have hgone : ∀ u ∈ (s.leaving keep rs).pump.tickets, u.id ≠ t.id := by
        intro u hu e
        have hin : u.id ∈ (s.leaving keep rs).pump.tickets.map Ticket.id := List.mem_map_of_mem hu
        rw [pump_ids, leaving_tickets] at hin
        obtain ⟨v, hv, ev⟩ := List.mem_map.mp hin
        obtain ⟨hv, hkv⟩ := List.mem_filter.mp hv
        rw [hs.eq_of_id hv ht (ev.trans e), hkeep] at hkv
        cases hkv
      have hans := answer_absent hgone
      refine ⟨?_, fun h => by rw [hans] at h; cases h⟩
      rw [hans, hleft.1.pump]
      exact hleft.2

/-- The receiver an acquire returns answers it from the start. -/
theorem Sound.enqueue_answers {s s' : Inner} (hs : s.Sound) {a : Acquire} {k : ℕ}
    (h : s.enqueueWith a = (.ok k, s')) : s'.Answers a.reqId k := by
  have hres := s.enqueueWith_result a
  rw [h] at hres
  by_cases hacc : s.accepts a = true
  · have hfresh := ((s.accepts_iff a).mp hacc).1
    rw [if_pos hacc] at hres
    have hk : k = s.oneshots.length := Option.some.inj hres
    have hs' : s' = (s.enqueued a).2.pump := by
      rw [← apply_accepted hacc, Inner.apply, h]
    rw [hs']
    refine (hs.enqueued a hfresh).pump_answers ?_
    rw [enqueued_eq s a (hs.sender_none hfresh), hk]
    exact Function.update_self _ _ _
  · rw [if_neg hacc] at hres
    cases hres

theorem Sound.of_enqueueWith {s s' : Inner} (hs : s.Sound) {a : Acquire} {k : ℕ}
    (h : s.enqueueWith a = (.ok k, s')) : s'.Sound := by
  have hs' := hs.apply (.enqueueWith a)
  rw [Inner.apply, h] at hs'
  exact hs'

/-! ## A whole run -/

theorem Sound.foldl_apply {s : Inner} (hs : s.Sound) (ops : List Op) :
    (ops.foldl Inner.apply s).Sound := by
  induction ops generalizing s with
  | nil => exact hs
  | cons op ops ih => exact ih (hs.apply op)

theorem Sound.fate_seen {s : Inner} (hs : s.Sound) {reqId : String} {k : ℕ}
    (h : s.Answers reqId k) (ops : List Op) :
    (ops.foldl Inner.apply s).oneshots[k]? = some (s.fate reqId ops) := by
  have hstays : ∀ (ops : List Op) (s : Inner) (seen : Oneshot), s.Sound → seen ≠ .pending →
      s.oneshots[k]? = some seen → (ops.foldl Inner.apply s).oneshots[k]? = some seen := by
    intro ops
    induction ops with
    | nil => exact fun _ _ _ _ hk => hk
    | cons op ops ih =>
      intro s seen hs hseen hk
      exact ih _ seen (hs.apply op) hseen (hs.resolved_stays op hk hseen)
  induction ops generalizing s with
  | nil => exact h.seen
  | cons op ops ih =>
    rw [fate]
    by_cases hans : s.answer reqId = .pending
    · rw [if_pos hans]
      exact ih (hs.apply op) (hs.apply_answers op (h.sender hans))
    · rw [if_neg hans]
      exact hstays (op :: ops) s _ hs hans h.seen

/-- While the receiver of an acquire is open it answers it. -/
theorem Sound.open_answers {s : Inner} (hs : s.Sound) {reqId : String} {k : ℕ}
    (h : s.Answers reqId k) (ops : List Op)
    (hopen : (ops.foldl Inner.apply s).oneshots[k]? = some .pending) :
    (ops.foldl Inner.apply s).Answers reqId k := by
  induction ops generalizing s with
  | nil => exact h
  | cons op ops ih =>
    by_cases hans : s.answer reqId = .pending
    · exact ih (hs.apply op) (hs.apply_answers op (h.sender hans)) hopen
    · have hseen := hs.fate_seen h (op :: ops)
      rw [hopen, fate, if_neg hans] at hseen
      exact absurd (Option.some.inj hseen).symm hans

end Inner

/-- Every acquire is answered once: ids are unique, the senders are those of the waiting tickets,
and what an acquire's receiver has seen is the first thing to have happened to its waiting ticket,
the value if it was started and the closing if it was taken out. -/
theorem answered_once :
    (∀ ops, ((run ops).tickets.map Ticket.id).Nodup ∧ ∀ id, ((run ops).senders id).isSome = true ↔
      ∃ t ∈ (run ops).tickets, t.id = id ∧ t.state = .waiting) ∧
    (∀ ops a k s, (run ops).enqueueWith a = (.ok k, s) → ∀ rest : List Op,
      (rest.foldl Inner.apply s).oneshots[k]? = some (s.fate a.reqId rest)) ∧
    ∀ ops a k s, (run ops).enqueueWith a = (.ok k, s) → ∀ (rest : List Op) (op : Op),
      let before := rest.foldl Inner.apply s
      let after := before.apply op
      (before.oneshots[k]? = some .pending →
        (∃ t ∈ before.tickets, t.id = a.reqId ∧ t.state = .waiting) ∧
        (after.oneshots[k]? = some .sent ↔
          ∃ t ∈ after.tickets, t.id = a.reqId ∧ t.state = .running) ∧
        (after.oneshots[k]? = some .closed ↔ ∀ t ∈ after.tickets, t.id ≠ a.reqId)) ∧
      (before.oneshots[k]? ≠ some .pending → after.oneshots[k]? = before.oneshots[k]?) := by
  refine ⟨fun ops => ⟨(run_sound ops).ids_nodup, (run_sound ops).sender_iff⟩, ?_, ?_⟩
  · intro ops a k s h rest
    exact (Inner.Sound.of_enqueueWith (run_sound ops) h).fate_seen ((run_sound ops).enqueue_answers h) rest
  · intro ops a k s h rest op before after
    have hs := Inner.Sound.of_enqueueWith (run_sound ops) h
    have hanswers := (run_sound ops).enqueue_answers h
    have hbefore : before.Sound := hs.foldl_apply rest
    constructor
    · intro hopen
      have hfollows := hs.open_answers hanswers rest hopen
      have hans : before.answer a.reqId = .pending := by
        have hseen := hfollows.seen
        rw [hopen] at hseen
        exact (Option.some.inj hseen).symm
      have hafter := (hbefore.apply_answers op (hfollows.sender hans)).seen
      refine ⟨Inner.answer_pending hans, ?_, ?_⟩
      · rw [hafter, Option.some.injEq, (hbefore.apply op).answer_sent_iff]
      · rw [hafter, Option.some.injEq, Inner.answer_closed_iff]
    · intro hresolved
      have hseen := hs.fate_seen hanswers rest
      rw [hseen]
      refine hbefore.resolved_stays op hseen ?_
      intro e
      rw [e] at hseen
      exact hresolved hseen

end Haruspex.InferenceQueue
