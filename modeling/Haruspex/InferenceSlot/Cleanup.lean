import Haruspex.InferenceSlot.Turn

/-! What a finished turn leaves in the queue. A take-back must find the reservation it replaces: it
must not come before the release that makes it, it must not be refused while the reservation stands,
and it must not be accepted when the turn's final release is over. Where every take-back is processed
so, a turn whose messages are all processed has left nothing. -/
namespace Haruspex.InferenceSlot
open InferenceQueue
set_option autoImplicit false

/-! ## List facts -/

theorem eq_of_countP_one {α : Type} (p : α → Bool) (l : List α) (h : l.countP p = 1) {a b : α}
    (ha : a ∈ l) (hb : b ∈ l) (hpa : p a = true) (hpb : p b = true) : a = b := by
  rw [List.countP_eq_length_filter] at h
  obtain ⟨c, hc⟩ := List.length_eq_one_iff.mp h
  have hmem : ∀ x ∈ l, p x = true → x = c := by
    intro x hx hpx
    have hin : x ∈ l.filter p := List.mem_filter.mpr ⟨hx, hpx⟩
    rw [hc] at hin
    exact List.mem_singleton.mp hin
  rw [hmem a ha hpa, hmem b hb hpb]

theorem mem_erase_or {α : Type} [DecidableEq α] {l : List α} {a b : α} (h : a ∈ l) :
    a ∈ l.erase b ∨ a = b := by
  by_cases e : a = b
  · exact Or.inr e
  · exact Or.inl ((List.mem_erase_of_ne e).mpr h)

theorem countP_erase_add {α : Type} [DecidableEq α] (p : α → Bool) {l : List α} {a : α}
    (h : a ∈ l) : l.countP p = (l.erase a).countP p + if p a then 1 else 0 := by
  rw [(List.perm_cons_erase h).countP_eq, List.countP_cons]

/-! ## The condition -/

/-- The condition on a message being processed: a take-back finds the release it follows processed,
is not refused while the reservation it replaces stands, and is accepted only with the turn's final
release still to come. -/
def World.Orderly (w : World) : Event → Prop
  | .deliver (.acquire a) _ =>
    (∀ old ∈ a.admission.replaces, .release old true ∉ w.inFlight) ∧
      (w.queue.accepts a = false →
        ∀ r ∈ w.queue.reservations, a.admission.replaces ≠ some r.id) ∧
      (w.queue.accepts a = true → w.phase = .finished → .release a.reqId false ∈ w.inFlight)
  | _ => True

instance World.decidableOrderly (w : World) : (e : Event) → Decidable (w.Orderly e)
  | .deliver (.acquire a) _ => inferInstanceAs (Decidable
      ((∀ old ∈ a.admission.replaces, .release old true ∉ w.inFlight) ∧
        (w.queue.accepts a = false →
          ∀ r ∈ w.queue.reservations, a.admission.replaces ≠ some r.id) ∧
        (w.queue.accepts a = true → w.phase = .finished → .release a.reqId false ∈ w.inFlight)))
  | .deliver (.release _ _) _ => .isTrue trivial
  | .deliver (.cancel _) _ => .isTrue trivial
  | .deliver (.heartbeat _) _ => .isTrue trivial
  | .other _ => .isTrue trivial
  | .answered => .isTrue trivial
  | .abort => .isTrue trivial
  | .release => .isTrue trivial
  | .reacquire _ _ _ => .isTrue trivial
  | .finish => .isTrue trivial
  | .heartbeat => .isTrue trivial

/-! ## The invariant -/

/-- While the turn has not returned its final release is to come; after that it is under way. -/
def World.Ending (w : World) : Prop := w.phase = .finished → .release w.reqId false ∈ w.inFlight

/-- An acquire under way will end the reservation. -/
def World.Replacing (w : World) (id : String) : Prop :=
  ∃ a, .acquire a ∈ w.inFlight ∧ a.admission.replaces = some id

/-- Whatever the turn has in the queue, some message that ends it is under way or to come. -/
structure World.Tidy (mine : String → Bool) (w : World) : Prop where
  sound : w.queue.Sound
  used_mine : ∀ id ∈ w.used, mine id = true
  current : w.reqId ∈ w.used
  messages_used : ∀ m ∈ w.inFlight, m.reqId ∈ w.used
  acquires : ∀ a, .acquire a ∈ w.inFlight → a.reqId = w.reqId
  one_acquire : w.inFlight.countP Message.isAcquire = if w.acquiring = .sent then 1 else 0
  reserve : ∀ id, .release id true ∈ w.inFlight → id = w.reqId ∨ w.Replacing id
  tickets : ∀ t ∈ w.queue.tickets, mine t.id = true →
    (t.id = w.reqId ∧ w.Ending) ∨ (t.id ≠ w.reqId ∧ .release t.id true ∈ w.inFlight)
  reservations : ∀ r ∈ w.queue.reservations, mine r.id = true →
    (r.id = w.reqId ∧ w.Ending) ∨ w.Replacing r.id
  given_back : w.phase = .running → w.held = false → w.aborted = false → w.acquiring = .none →
    ∀ t ∈ w.queue.tickets, t.id = w.reqId → .release w.reqId true ∈ w.inFlight
  unanswered : w.acquiring = .sent ∨ w.acquiring = .refused →
    ∀ t ∈ w.queue.tickets, t.id ≠ w.reqId
  waiting : ∀ rx, w.acquiring = .waiting rx →
    (w.queue.oneshots[rx]? = some .pending → w.queue.senders w.reqId = some rx) ∧
      (w.queue.oneshots[rx]? = some .closed → ∀ t ∈ w.queue.tickets, t.id ≠ w.reqId) ∧
        (w.queue.oneshots[rx]?).isSome = true

namespace World

/-- A turn with nothing of its own under way or to come has nothing in the queue. -/
theorem Tidy.gone {mine : String → Bool} {w : World} (h : w.Tidy mine) (hsettled : w.Settled) :
    w.Gone mine := by
  obtain ⟨hfinished, hempty⟩ := hsettled
  have hno : ∀ m, m ∉ w.inFlight := by
    intro m hm
    rw [hempty] at hm
    cases hm
  constructor
  · intro t ht
    by_contra hmine
    rcases h.tickets t ht (by simpa using hmine) with ⟨-, hend⟩ | ⟨-, hrel⟩
    · exact hno _ (hend hfinished)
    · exact hno _ hrel
  · intro r hr
    by_contra hmine
    rcases h.reservations r hr (by simpa using hmine) with ⟨-, hend⟩ | ⟨a, ha, -⟩
    · exact hno _ (hend hfinished)
    · exact hno _ ha

/-! ## The queue moves -/

/-- The receiver a turn waits on, after a call that is not an acquire of the turn's request. -/
theorem Tidy.waiting_apply {mine : String → Bool} {w : World} (h : w.Tidy mine) (op : Op)
    (hop : ∀ a, op = .enqueueWith a → a.reqId ≠ w.reqId) (rx : ℕ) (hrx : w.acquiring = .waiting rx) :
    ((w.queue.apply op).oneshots[rx]? = some .pending →
      (w.queue.apply op).senders w.reqId = some rx) ∧
      ((w.queue.apply op).oneshots[rx]? = some .closed →
        ∀ t ∈ (w.queue.apply op).tickets, t.id ≠ w.reqId) ∧
        ((w.queue.apply op).oneshots[rx]?).isSome = true := by
  obtain ⟨hpending, hclosed, hsome⟩ := h.waiting rx hrx
  obtain ⟨seen, hseen⟩ := Option.isSome_iff_exists.mp hsome
  by_cases e : seen = .pending
  · subst e
    have hanswers := h.sound.apply_answers op (hpending hseen)
    rw [hanswers.seen]
    refine ⟨fun hp => hanswers.sender (Option.some.inj hp), ?_, rfl⟩
    intro hc
    exact (Inner.answer_closed_iff _ _).mp (Option.some.inj hc)
  · rw [h.sound.resolved_stays op hseen e]
    refine ⟨fun hp => absurd (Option.some.inj hp) e, ?_, rfl⟩
    intro hc t' ht' hid
    have hno := hclosed (hseen.trans hc)
    rcases h.sound.ticket_origin op ht' with ⟨t, ht, hsame⟩ | ⟨a, rfl, -, hsame⟩
    · exact hno t ht (hsame.id_eq.symm.trans hid)
    · exact hop a rfl (hsame.id_eq.symm.trans hid)

/-- The queue processes a call that is not one of the turn's acquires: what it does not end is
still under way. -/
theorem Tidy.apply {mine : String → Bool} {w : World} (h : w.Tidy mine) (op : Op)
    (inFlight : List Message)
    (hop : ∀ a, op = .enqueueWith a → mine a.reqId = false)
    (hsub : ∀ m ∈ inFlight, m ∈ w.inFlight)
    (hacquires : ∀ m, m.isAcquire = true → m ∈ w.inFlight → m ∈ inFlight)
    (hcount : inFlight.countP Message.isAcquire = w.inFlight.countP Message.isAcquire)
    (hrelease : ∀ id reserve, .release id reserve ∈ w.inFlight → .release id reserve ∈ inFlight ∨
      ∀ t ∈ (w.queue.apply op).tickets, t.id ≠ id)
    (hreservations : ∀ r ∈ (w.queue.apply op).reservations, mine r.id = true →
      (r.id = w.reqId ∧ (w.phase = .finished → .release w.reqId false ∈ inFlight)) ∨
        w.Replacing r.id) :
    { w with queue := w.queue.apply op, inFlight := inFlight }.Tidy mine := by
  have hmine : mine w.reqId = true := h.used_mine _ h.current
  have hnot : ∀ a, op = .enqueueWith a → a.reqId ≠ w.reqId := by
    intro a e eid
    have := hop a e
    rw [eid, hmine] at this
    cases this
  have hold : ∀ t' ∈ (w.queue.apply op).tickets, mine t'.id = true →
      ∃ t ∈ w.queue.tickets, t.id = t'.id := by
    intro t' ht' hm
    rcases h.sound.ticket_origin op ht' with ⟨t, ht, hsame⟩ | ⟨a, ha, -, hsame⟩
    · exact ⟨t, ht, hsame.id_eq.symm⟩
    · have hid : t'.id = a.reqId := hsame.id_eq
      rw [hid, hop a ha] at hm
      cases hm
  have hreplacing : ∀ id, w.Replacing id →
      { w with queue := w.queue.apply op, inFlight := inFlight }.Replacing id := by
    intro id ⟨a, ha, hrep⟩
    exact ⟨a, hacquires _ rfl ha, hrep⟩
  refine ⟨h.sound.apply op, h.used_mine, h.current, fun m hm => h.messages_used m (hsub m hm),
    fun a ha => h.acquires a (hsub _ ha), hcount.trans h.one_acquire, ?_, ?_, ?_, ?_, ?_, ?_⟩
  · intro id hid
    exact (h.reserve id (hsub _ hid)).imp_right (hreplacing id)
  · intro t' ht' hm
    obtain ⟨t, ht, hid⟩ := hold t' ht' hm
    rcases h.tickets t ht (hid ▸ hm) with ⟨hcur, hend⟩ | ⟨hne, hrel⟩
    · refine Or.inl ⟨hid.symm.trans hcur, ?_⟩
      intro hfin
      exact (hrelease _ _ (hend hfin)).resolve_right
        (fun hno => hno t' ht' (hid.symm.trans hcur))
    · rw [hid] at hne hrel
      exact Or.inr ⟨hne, (hrelease _ _ hrel).resolve_right (fun hno => hno t' ht' rfl)⟩
  · intro r hr hm
    exact (hreservations r hr hm).imp_right (hreplacing r.id)
  · intro hphase hheld haborted hacquiring t' ht' hid
    have hm : mine t'.id = true := by
      rw [hid]
      exact hmine
    obtain ⟨t, ht, htid⟩ := hold t' ht' hm
    have hrel := h.given_back hphase hheld haborted hacquiring t ht (htid.trans hid)
    exact (hrelease _ _ hrel).resolve_right (fun hno => hno t' ht' hid)
  · intro hacquiring t' ht' hid
    have hm : mine t'.id = true := by
      rw [hid]
      exact hmine
    obtain ⟨t, ht, htid⟩ := hold t' ht' hm
    exact h.unanswered hacquiring t ht (htid.trans hid)
  · exact h.waiting_apply op hnot

/-- The reservations of the turn after a call that neither makes one nor is one of its releases. -/
theorem Tidy.reservations_apply {mine : String → Bool} {w : World} (h : w.Tidy mine) (op : Op)
    (hop : ∀ reqId now, op ≠ .releaseWith reqId true now ∨ mine reqId = false) :
    ∀ r ∈ (w.queue.apply op).reservations, mine r.id = true →
      (r.id = w.reqId ∧ w.Ending) ∨ w.Replacing r.id := by
  intro r' hr' hm
  rcases h.sound.reservation_origin op hr' with ⟨r, hr, hsame⟩ | ⟨reqId, now, e, t, -, hid, rfl⟩
  · rw [hsame.id_eq] at hm ⊢
    exact h.reservations r hr hm
  · have hno := (hop reqId now).resolve_left (fun hne => hne e)
    rw [← hid] at hno
    rw [hno] at hm
    cases hm

theorem Tidy.other {mine : String → Bool} {w : World} (h : w.Tidy mine) {op : Op}
    (hop : (opNames op).any mine = false) : { w with queue := w.queue.apply op }.Tidy mine := by
  refine h.apply op w.inFlight ?_ (fun m hm => hm) (fun m _ hm => hm) rfl
    (fun _ _ hm => Or.inl hm) (h.reservations_apply op ?_)
  · rintro a rfl
    rw [opNames, List.any_cons, Bool.or_eq_false_iff] at hop
    exact hop.1
  · intro reqId now
    by_cases e : op = .releaseWith reqId true now
    · subst e
      rw [opNames, List.any_cons, Bool.or_eq_false_iff] at hop
      exact Or.inr hop.1
    · exact Or.inl e

theorem countP_erase_other (l : List Message) {m : Message} (hm : m.isAcquire = false) :
    (l.erase m).countP Message.isAcquire = l.countP Message.isAcquire := by
  by_cases hmem : m ∈ l
  · have hcount := countP_erase_add Message.isAcquire hmem
    rw [hm] at hcount
    exact hcount.symm
  · rw [List.erase_of_not_mem hmem]

/-- A cancel or a heartbeat is processed. -/
theorem Tidy.deliver_idle {mine : String → Bool} {w : World} (h : w.Tidy mine) {m : Message}
    (now : UInt64) (hacquire : m.isAcquire = false) (hrelease : ∀ id reserve, m ≠ .release id reserve) :
    (w.deliver m now).Tidy mine := by
  have hop : ∀ a, m.op now ≠ .enqueueWith a := by
    intro a e
    cases m with
    | acquire _ => cases hacquire
    | release _ _ => cases e
    | cancel _ => cases e
    | heartbeat _ => cases e
  have hrel : ∀ reqId now', m.op now ≠ .releaseWith reqId true now' := by
    intro reqId now' e
    cases m with
    | acquire _ => cases e
    | release id reserve => exact hrelease id reserve rfl
    | cancel _ => cases e
    | heartbeat _ => cases e
  have hkept : ∀ m', m'.isAcquire = true ∨ (∃ id reserve, m' = .release id reserve) →
      m' ∈ w.inFlight → m' ∈ w.inFlight.erase m := by
    intro m' hm' hin
    refine (List.mem_erase_of_ne ?_).mpr hin
    rintro rfl
    rcases hm' with e | ⟨id, reserve, e⟩
    · rw [hacquire] at e
      cases e
    · exact hrelease id reserve e
  have hstate : w.deliver m now =
      { w with queue := w.queue.apply (m.op now), inFlight := w.inFlight.erase m } := by
    cases m with
    | acquire _ => cases hacquire
    | release _ _ => rfl
    | cancel _ => rfl
    | heartbeat _ => rfl
  rw [hstate]
  refine h.apply (m.op now) _ (fun a e => absurd e (hop a)) (fun _ => List.mem_of_mem_erase)
    (fun m' hm' hin => hkept m' (Or.inl hm') hin) (countP_erase_other _ hacquire)
    (fun id reserve hin => Or.inl (hkept _ (Or.inr ⟨id, reserve, rfl⟩) hin)) ?_
  intro r hr hm
  refine (h.reservations_apply _ (fun reqId now' => Or.inl (hrel reqId now')) r hr hm).imp_left ?_
  exact fun ⟨hid, hend⟩ => ⟨hid, fun hfin => hkept _ (Or.inr ⟨_, _, rfl⟩) (hend hfin)⟩

/-- A release is processed: its ticket is gone, and a reservation it leaves is ended by the final
release or the take-back. -/
theorem Tidy.deliver_release {mine : String → Bool} {w : World} (h : w.Tidy mine) {id : String}
    {reserve : Bool} (now : UInt64) (hm : .release id reserve ∈ w.inFlight) :
    (w.deliver (.release id reserve) now).Tidy mine := by
  have hgone := h.sound.released_gone id reserve now
  have hkept : ∀ m', m' ≠ .release id reserve → m' ∈ w.inFlight →
      m' ∈ w.inFlight.erase (.release id reserve) := fun m' hne hin =>
    (List.mem_erase_of_ne hne).mpr hin
  refine h.apply (.releaseWith id reserve now) _ (fun a e => by cases e)
    (fun _ => List.mem_of_mem_erase) ?_ (countP_erase_other _ rfl) ?_ ?_
  · intro m' hacquire hin
    refine hkept m' ?_ hin
    rintro rfl
    cases hacquire
  · intro id' reserve' hin
    rcases mem_erase_or (b := Message.release id reserve) hin with hin | e
    · exact Or.inl hin
    · cases e
      exact Or.inr hgone
  · intro r hr hmine
    have hr' : r ∈ w.queue.heldBack id reserve now := by
      rw [← h.sound.release_reservations]
      exact hr
    have hfinal : r.id ≠ id → w.Ending → w.phase = .finished →
        r.id = w.reqId → .release w.reqId false ∈ w.inFlight.erase (.release id reserve) := by
      intro hne hend hfin hid
      refine hkept _ ?_ (hend hfin)
      intro e
      cases e
      exact hne hid
    rcases (w.queue.mem_heldBack id reserve now r).mp hr' with ⟨hr, hne⟩ | ⟨hres, t, ht, hid, rfl⟩
    · rcases h.reservations r hr hmine with ⟨hid, hend⟩ | hrep
      · exact Or.inl ⟨hid, fun hfin => hfinal hne hend hfin hid⟩
      · exact Or.inr hrep
    · subst hres
      have hidcur : t.id = id := hid
      rcases h.tickets t ht hmine with ⟨hcur, hend⟩ | ⟨hne, -⟩
      · refine Or.inl ⟨hcur, fun hfin => hkept _ (fun e => by cases e) (hend hfin)⟩
      · rcases h.reserve id hm with e | hrep
        · exact absurd (hidcur.trans e) hne
        · right
          rw [← hidcur] at hrep
          exact hrep

/-- An acquire is processed in order. -/
theorem Tidy.deliver_acquire {mine : String → Bool} {w : World} (h : w.Tidy mine) {a : Acquire}
    (now : UInt64) (hm : .acquire a ∈ w.inFlight)
    (horderly : w.Orderly (.deliver (.acquire a) now)) : (w.deliver (.acquire a) now).Tidy mine := by
  obtain ⟨hfirst, hrefused, haccepted⟩ := horderly
  have hid := h.acquires a hm
  have hmine : mine w.reqId = true := h.used_mine _ h.current
  have hcount : w.inFlight.countP Message.isAcquire = 1 ∧ w.acquiring = .sent := by
    have hpos : 0 < w.inFlight.countP Message.isAcquire :=
      List.countP_pos_iff.mpr ⟨_, hm, rfl⟩
    have hone := h.one_acquire
    split at hone
    · exact ⟨hone, ‹_›⟩
    · omega
  have hnew := h.unanswered (Or.inl hcount.2)
  have honly : ∀ b, .acquire b ∈ w.inFlight → b = a := by
    intro b hb
    have e := eq_of_countP_one _ _ hcount.1 hb hm rfl rfl
    cases e
    rfl
  have hrelease : ∀ id reserve, .release id reserve ∈ w.inFlight →
      .release id reserve ∈ w.inFlight.erase (.acquire a) := fun id reserve hin =>
    (List.mem_erase_of_ne (fun e => by cases e)).mpr hin
  have hnone : (w.inFlight.erase (.acquire a)).countP Message.isAcquire = 0 := by
    have hadd := countP_erase_add Message.isAcquire hm
    have hself : (Message.acquire a).isAcquire = true := rfl
    rw [hcount.1, hself, if_pos rfl] at hadd
    omega
  have hno : ∀ b, .acquire b ∉ w.inFlight.erase (.acquire a) := by
    intro b hb
    have hpos : 0 < (w.inFlight.erase (.acquire a)).countP Message.isAcquire :=
      List.countP_pos_iff.mpr ⟨_, hb, rfl⟩
    omega
  have hacquiring : acquireState w.queue { a with now := now } ≠ .none ∧
      acquireState w.queue { a with now := now } ≠ .sent := by
    unfold acquireState
    split <;> exact ⟨fun e => (by cases e), fun e => (by cases e)⟩
  have hsame : w.queue.accepts { a with now := now } = w.queue.accepts a := rfl
  -- the turn's tickets after the acquire: the old ones, and its own
  have hold : ∀ t' ∈ (w.queue.apply (.enqueueWith { a with now := now })).tickets,
      (∃ t ∈ w.queue.tickets, t.id = t'.id) ∨ (t'.id = w.reqId ∧ w.queue.accepts a = true) := by
    intro t' ht'
    rcases h.sound.ticket_origin _ ht' with ⟨t, ht, hsame'⟩ | ⟨b, e, hacc, hsame'⟩
    · exact Or.inl ⟨t, ht, hsame'.id_eq.symm⟩
    · cases e
      exact Or.inr ⟨hsame'.id_eq.trans hid, hsame.symm.trans hacc⟩
  have hsound : (w.deliver (.acquire a) now).queue.Sound :=
    h.sound.apply (.enqueueWith { a with now := now })
  refine ⟨hsound, h.used_mine, h.current,
    fun m hm => h.messages_used m (List.mem_of_mem_erase hm), fun b hb => absurd hb (hno b),
    ?_, ?_, ?_, ?_, fun _ _ _ hacq => absurd hacq hacquiring.1, ?_, ?_⟩
  · rw [deliver]
    dsimp only
    rw [if_neg hacquiring.2]
    exact hnone
  · intro id hin
    have hin := List.mem_of_mem_erase hin
    rcases h.reserve id hin with e | ⟨b, hb, hrep⟩
    · exact Or.inl e
    · rw [honly b hb] at hrep
      exact absurd hin (hfirst id hrep)
  · intro t' ht' hmt
    rcases hold t' ht' with ⟨t, ht, e⟩ | ⟨e, hacc⟩
    · rcases h.tickets t ht (e ▸ hmt) with ⟨hcur, hend⟩ | ⟨hne, hrel⟩
      · exact absurd hcur (hnew t ht)
      · rw [e] at hne hrel
        exact Or.inr ⟨hne, hrelease _ _ hrel⟩
    · refine Or.inl ⟨e, ?_⟩
      intro hfin
      have hfinal := haccepted hacc hfin
      rw [hid] at hfinal
      exact hrelease _ _ hfinal
  · intro r hr hmr
    have hr : r ∈ (w.queue.apply (.enqueueWith { a with now := now })).reservations := hr
    have hleft : r ∈ w.queue.reservations ∧ a.admission.replaces ≠ some r.id := by
      cases hacc : w.queue.accepts a with
      | true =>
        rw [h.sound.accepted_reservations (hsame.trans hacc)] at hr
        exact (w.queue.mem_replacedReservations _ r).mp hr
      | false =>
        rw [Inner.refused_reservations (hsame.trans hacc)] at hr
        exact ⟨hr, hrefused hacc r hr⟩
    rcases h.reservations r hleft.1 hmr with ⟨e, hend⟩ | ⟨b, hb, hrep⟩
    · exact Or.inl ⟨e, fun hfin => hrelease _ _ (hend hfin)⟩
    · rw [honly b hb] at hrep
      exact absurd hrep hleft.2
  · intro hacq t' ht' e
    have hstate : acquireState w.queue { a with now := now } = .refused :=
      hacq.resolve_left hacquiring.2
    rcases hold t' ht' with ⟨t, ht, e'⟩ | ⟨-, hacc⟩
    · exact hnew t ht (e'.trans e)
    · have hresult := w.queue.enqueueWith_result { a with now := now }
      rw [hsame, if_pos hacc] at hresult
      unfold acquireState at hstate
      split at hstate
      · cases hstate
      · rename_i herr
        rw [herr] at hresult
        cases hresult
  · intro rx hacq
    have hstate : acquireState w.queue { a with now := now } = .waiting rx := hacq
    have hok : w.queue.enqueueWith { a with now := now } =
        (.ok rx, w.queue.apply (.enqueueWith { a with now := now })) := by
      unfold acquireState at hstate
      split at hstate
      · rename_i rx' hres
        cases hstate
        exact Prod.ext hres rfl
      · cases hstate
    have hanswers := h.sound.enqueue_answers hok
    have hanswers : (w.queue.apply (.enqueueWith { a with now := now })).Answers a.reqId rx :=
      hanswers
    show ((w.queue.apply (.enqueueWith { a with now := now })).oneshots[rx]? = some .pending →
      (w.queue.apply (.enqueueWith { a with now := now })).senders w.reqId = some rx) ∧
      ((w.queue.apply (.enqueueWith { a with now := now })).oneshots[rx]? = some .closed →
        ∀ t ∈ (w.queue.apply (.enqueueWith { a with now := now })).tickets, t.id ≠ w.reqId) ∧
      ((w.queue.apply (.enqueueWith { a with now := now })).oneshots[rx]?).isSome = true
    rw [← hid, hanswers.seen]
    refine ⟨fun hp => hanswers.sender (Option.some.inj hp), ?_, rfl⟩
    intro hc
    exact (Inner.answer_closed_iff _ _).mp (Option.some.inj hc)

/-! ## The client moves -/

/-- A cancel or a heartbeat is sent. -/
theorem Tidy.send_idle {mine : String → Bool} {w : World} (h : w.Tidy mine) {m : Message}
    (hacquire : m.isAcquire = false) (hrelease : ∀ id reserve, m ≠ .release id reserve)
    (hid : m.reqId = w.reqId) : (w.send m).Tidy mine := by
  have hmem : ∀ m', m' ∈ w.inFlight → m' ∈ (w.send m).inFlight := fun m' hin =>
    List.mem_append_left _ hin
  have hback : ∀ m', (m'.isAcquire = true ∨ ∃ id reserve, m' = .release id reserve) →
      m' ∈ (w.send m).inFlight → m' ∈ w.inFlight := by
    intro m' hm' hin
    rcases List.mem_append.mp hin with hin | hin
    · exact hin
    · have e := List.mem_singleton.mp hin
      subst e
      rcases hm' with e | ⟨id, reserve, e⟩
      · rw [hacquire] at e
        cases e
      · exact absurd e (hrelease id reserve)
  have hreplacing : ∀ id, w.Replacing id → (w.send m).Replacing id := fun id ⟨a, ha, hrep⟩ =>
    ⟨a, hmem _ ha, hrep⟩
  have hending : w.Ending → (w.send m).Ending := fun hend hfin => hmem _ (hend hfin)
  refine ⟨h.sound, h.used_mine, h.current, ?_, fun a ha => h.acquires a (hback _ (Or.inl rfl) ha),
    ?_, ?_, ?_, ?_, ?_, h.unanswered, h.waiting⟩
  · intro m' hin
    rcases List.mem_append.mp hin with hin | hin
    · exact h.messages_used m' hin
    · rw [List.mem_singleton.mp hin, hid]
      exact h.current
  · have hone := h.one_acquire
    rw [send]
    dsimp only
    rw [List.countP_append, List.countP_singleton, hacquire, hone]
    rfl
  · intro id hin
    exact (h.reserve id (hback _ (Or.inr ⟨_, _, rfl⟩) hin)).imp_right (hreplacing id)
  · intro t ht hmine
    rcases h.tickets t ht hmine with ⟨e, hend⟩ | ⟨hne, hrel⟩
    · exact Or.inl ⟨e, hending hend⟩
    · exact Or.inr ⟨hne, hmem _ hrel⟩
  · intro r hr hmine
    rcases h.reservations r hr hmine with ⟨e, hend⟩ | hrep
    · exact Or.inl ⟨e, hending hend⟩
    · exact Or.inr (hreplacing _ hrep)
  · intro hphase hheld haborted hacq t ht e
    exact hmem _ (h.given_back hphase hheld haborted hacq t ht e)

theorem mem_send {w : World} {m m' : Message} (h : m' ∈ w.inFlight) : m' ∈ (w.send m).inFlight :=
  List.mem_append_left _ h

theorem mem_send_self (w : World) (m : Message) : m ∈ (w.send m).inFlight :=
  List.mem_append_right _ (List.mem_singleton.mpr rfl)

theorem mem_of_send {w : World} {m m' : Message} (h : m' ∈ (w.send m).inFlight) :
    m' ∈ w.inFlight ∨ m' = m :=
  (List.mem_append.mp h).imp_right List.mem_singleton.mp

/-- The turn returns: its final release is under way, whatever it still awaits. -/
theorem Tidy.conclude {mine : String → Bool} {w : World} (h : w.Tidy mine) : w.conclude.Tidy mine := by
  have hmem : ∀ m, m ∈ w.inFlight → m ∈ w.conclude.inFlight := fun m hin => mem_send hin
  have hback : ∀ m, m ≠ .release w.reqId false → m ∈ w.conclude.inFlight → m ∈ w.inFlight :=
    fun m hne hin => (mem_of_send hin).resolve_right hne
  have hreplacing : ∀ id, w.Replacing id → w.conclude.Replacing id := fun id ⟨a, ha, hrep⟩ =>
    ⟨a, hmem _ ha, hrep⟩
  have hending : w.conclude.Ending := fun _ => mem_send_self _ _
  refine ⟨h.sound, h.used_mine, h.current, ?_,
    fun a ha => h.acquires a (hback _ (fun e => by cases e) ha), ?_, ?_, ?_, ?_, ?_,
    h.unanswered, h.waiting⟩
  · intro m hin
    rcases mem_of_send hin with hin | e
    · exact h.messages_used m hin
    · rw [e]
      exact h.current
  · have hone := h.one_acquire
    rw [World.conclude, send]
    dsimp only
    rw [List.countP_append, hone]
    rfl
  · intro id hin
    exact (h.reserve id (hback _ (fun e => by cases e) hin)).imp_right (hreplacing id)
  · intro t ht hmine
    rcases h.tickets t ht hmine with ⟨e, -⟩ | ⟨hne, hrel⟩
    · exact Or.inl ⟨e, hending⟩
    · exact Or.inr ⟨hne, hmem _ hrel⟩
  · intro r hr hmine
    rcases h.reservations r hr hmine with ⟨e, -⟩ | hrep
    · exact Or.inl ⟨e, hending⟩
    · exact Or.inr (hreplacing _ hrep)
  · intro hphase
    cases hphase

/-- A ticket the turn holds is given back: its release is under way. -/
theorem Tidy.release {mine : String → Bool} {w : World} (h : w.Tidy mine) : w.release.Tidy mine := by
  unfold World.release
  by_cases hnoop : w.held = false ∨ w.phase = .finished
  · rw [if_pos hnoop]
    exact h
  · rw [if_neg hnoop]
    have hback : ∀ m, m ≠ .release w.reqId true →
        m ∈ ({ w with held := false }.send (.release w.reqId true)).inFlight → m ∈ w.inFlight :=
      fun m hne hin => (mem_of_send hin).resolve_right hne
    have hreplacing : ∀ id, w.Replacing id →
        ({ w with held := false }.send (.release w.reqId true)).Replacing id :=
      fun id ⟨a, ha, hrep⟩ => ⟨a, mem_send ha, hrep⟩
    have hending : w.Ending → ({ w with held := false }.send (.release w.reqId true)).Ending :=
      fun hend hfin => mem_send (hend hfin)
    refine ⟨h.sound, h.used_mine, h.current, ?_,
      fun a ha => h.acquires a (hback _ (fun e => by cases e) ha), ?_, ?_, ?_, ?_, ?_,
      h.unanswered, h.waiting⟩
    · intro m hin
      rcases mem_of_send hin with hin | e
      · exact h.messages_used m hin
      · rw [e]
        exact h.current
    · have hone := h.one_acquire
      rw [send]
      dsimp only
      rw [List.countP_append, hone]
      rfl
    · intro id hin
      rcases mem_of_send hin with hin | e
      · exact (h.reserve id hin).imp_right (hreplacing id)
      · cases e
        exact Or.inl rfl
    · intro t ht hmine
      rcases h.tickets t ht hmine with ⟨e, hend⟩ | ⟨hne, hrel⟩
      · exact Or.inl ⟨e, hending hend⟩
      · exact Or.inr ⟨hne, mem_send hrel⟩
    · intro r hr hmine
      rcases h.reservations r hr hmine with ⟨e, hend⟩ | hrep
      · exact Or.inl ⟨e, hending hend⟩
      · exact Or.inr (hreplacing _ hrep)
    · intro _ _ _ _ t ht e
      exact mem_send_self _ _

/-- The turn asks for its slot back: its old ticket is on its way out, and a reservation that one
leaves is replaced by the new acquire. -/
theorem Tidy.takeBack {mine : String → Bool} {w : World} (h : w.Tidy mine)
    (options : WithSlotOptions) {reqId lane : String} (maxParallel : Option UInt32)
    (hphase : w.phase = .running) (hheld : w.held = false) (haborted : w.aborted = false)
    (hacquiring : w.acquiring = .none) (hmine : mine reqId = true) (hnew : reqId ∉ w.used) :
    (w.takeBack options reqId lane maxParallel).Tidy mine := by
  have hnone : w.inFlight.countP Message.isAcquire = 0 := by
    rw [h.one_acquire, hacquiring]
    rfl
  have hno : ∀ a, .acquire a ∉ w.inFlight := by
    intro a ha
    have hpos : 0 < w.inFlight.countP Message.isAcquire := List.countP_pos_iff.mpr ⟨_, ha, rfl⟩
    omega
  have hnotReplacing : ∀ id, ¬ w.Replacing id := fun id ⟨a, ha, _⟩ => hno a ha
  have hreplaced : (w.takeBack options reqId lane maxParallel).Replacing w.reqId :=
    ⟨_, mem_send_self _ _, rfl⟩
  have hfresh : ∀ id ∈ w.used, id ≠ reqId := fun id hid e => hnew (e ▸ hid)
  have hticketUsed : ∀ t ∈ w.queue.tickets, mine t.id = true → t.id ∈ w.used := by
    intro t ht hm
    rcases h.tickets t ht hm with ⟨e, -⟩ | ⟨-, hrel⟩
    · rw [e]
      exact h.current
    · exact h.messages_used _ hrel
  refine ⟨h.sound, ?_, List.mem_cons_self, ?_, ?_, ?_, ?_, ?_, ?_, ?_, ?_, ?_⟩
  · intro id hid
    rcases List.mem_cons.mp hid with e | hid
    · rw [e]
      exact hmine
    · exact h.used_mine id hid
  · intro m hin
    rcases mem_of_send hin with hin | e
    · exact List.mem_cons_of_mem _ (h.messages_used m hin)
    · rw [e]
      exact List.mem_cons_self
  · intro a ha
    rcases mem_of_send ha with ha | e
    · exact absurd ha (hno a)
    · cases e
      rfl
  · rw [World.takeBack, send]
    dsimp only
    rw [List.countP_append, hnone]
    rfl
  · intro id hin
    rcases mem_of_send hin with hin | e
    · rcases h.reserve id hin with e | hrep
      · right
        rw [e]
        exact hreplaced
      · exact absurd hrep (hnotReplacing id)
    · cases e
  · intro t ht hm
    right
    have hne : t.id ≠ reqId := hfresh _ (hticketUsed t ht hm)
    refine ⟨hne, ?_⟩
    rcases h.tickets t ht hm with ⟨e, -⟩ | ⟨-, hrel⟩
    · rw [e]
      exact mem_send (h.given_back hphase hheld haborted hacquiring t ht e)
    · exact mem_send hrel
  · intro r hr hm
    right
    rcases h.reservations r hr hm with ⟨e, -⟩ | hrep
    · rw [e]
      exact hreplaced
    · exact absurd hrep (hnotReplacing _)
  · intro _ _ _ hacq
    cases hacq
  · intro _ t ht e
    have hm : mine t.id = true := by
      rw [e]
      exact hmine
    exact hfresh _ (hticketUsed t ht hm) e
  · intro rx hacq
    cases hacq

/-- A refused or closed acquire, or one whose ticket is gone again, leaves no ticket. -/
theorem Tidy.no_ticket {mine : String → Bool} {w : World} (h : w.Tidy mine)
    (hresponse : w.response = some false) : ∀ t ∈ w.queue.tickets, t.id ≠ w.reqId := by
  unfold World.response at hresponse
  cases hacq : w.acquiring with
  | none =>
    rw [hacq] at hresponse
    cases hresponse
  | sent =>
    rw [hacq] at hresponse
    cases hresponse
  | refused => exact h.unanswered (Or.inr hacq)
  | waiting rx =>
    obtain ⟨-, hclosed, hsome⟩ := h.waiting rx hacq
    obtain ⟨seen, hseen⟩ := Option.isSome_iff_exists.mp hsome
    rw [hacq] at hresponse
    dsimp only at hresponse
    rw [hseen] at hresponse
    cases seen with
    | pending => cases hresponse
    | closed => exact hclosed hseen
    | sent =>
      have hnone : (w.queue.ticketDto w.reqId).isSome = false := Option.some.inj hresponse
      rw [Inner.ticketDto, Option.isSome_map, Option.isSome_eq_false_iff, Option.isNone_iff_eq_none,
        List.find?_eq_none] at hnone
      intro t ht e
      exact hnone t ht (decide_eq_true e)

/-- The awaited acquire is over. -/
theorem Tidy.over {mine : String → Bool} {w : World} (h : w.Tidy mine)
    (hacquiring : w.acquiring ≠ .sent) (held : Bool) (phase : Phase)
    (hfinished : phase = .finished → w.phase = .finished)
    (hback : phase = .running → held = false → w.aborted = false →
      ∀ t ∈ w.queue.tickets, t.id ≠ w.reqId) :
    { w with acquiring := .none, held := held, phase := phase }.Tidy mine := by
  refine ⟨h.sound, h.used_mine, h.current, h.messages_used, h.acquires, ?_, h.reserve, ?_, ?_, ?_,
    ?_, ?_⟩
  · have hone := h.one_acquire
    rw [if_neg hacquiring] at hone
    exact hone
  · intro t ht hm
    rcases h.tickets t ht hm with ⟨e, hend⟩ | hrel
    · exact Or.inl ⟨e, fun hfin => hend (hfinished hfin)⟩
    · exact Or.inr hrel
  · intro r hr hm
    rcases h.reservations r hr hm with ⟨e, hend⟩ | hrep
    · exact Or.inl ⟨e, fun hfin => hend (hfinished hfin)⟩
    · exact Or.inr hrep
  · intro hphase hheld haborted _ t ht e
    exact absurd e (hback hphase hheld haborted t ht)
  · intro hacq
    rcases hacq with e | e <;> cases e
  · intro rx hacq
    cases hacq

/-- The client goes on after an acquire. -/
theorem Tidy.answered {mine : String → Bool} {w : World} (h : w.Tidy mine) {ok : Bool}
    (hresponse : w.response = some ok) : (w.answered ok).Tidy mine := by
  have hacquiring : w.acquiring ≠ .sent := by
    intro e
    unfold World.response at hresponse
    rw [e] at hresponse
    cases hresponse
  unfold World.answered
  cases hphase : w.phase with
  | entering =>
    dsimp only
    split
    · exact h.over hacquiring true .running (fun e => by cases e) (fun _ e => by cases e)
    · have hover := h.over hacquiring w.held .entering (fun e => by cases e) (fun e => by cases e)
      exact hover.conclude
  | running =>
    refine h.over hacquiring (ok && !w.aborted) .running (fun e => by cases e) ?_
    intro _ hheld haborted
    rw [haborted, Bool.not_false, Bool.and_true] at hheld
    rw [hheld] at hresponse
    exact h.no_ticket hresponse
  | finished => exact h.over hacquiring w.held .finished (fun _ => hphase) (fun e => by cases e)

/-! ## Every event, every run -/

theorem Tidy.step {mine : String → Bool} {w w' : World} (h : w.Tidy mine)
    {options : WithSlotOptions} {e : Event} (horderly : w.Orderly e)
    (hstep : w.step options mine e = some w') : w'.Tidy mine := by
  cases e with
  | deliver m now =>
    rw [World.step] at hstep
    by_cases hm : m ∈ w.inFlight
    · rw [if_pos hm] at hstep
      cases hstep
      cases m with
      | acquire a => exact h.deliver_acquire now hm horderly
      | release id reserve => exact h.deliver_release now hm
      | cancel id => exact h.deliver_idle now rfl (fun _ _ e => by cases e)
      | heartbeat id => exact h.deliver_idle now rfl (fun _ _ e => by cases e)
    · rw [if_neg hm] at hstep
      cases hstep
  | other op =>
    rw [World.step] at hstep
    by_cases hop : (opNames op).any mine = true
    · rw [if_pos hop] at hstep
      cases hstep
    · rw [if_neg hop] at hstep
      cases hstep
      exact h.other (by simpa using hop)
  | answered =>
    rw [World.step] at hstep
    obtain ⟨ok, hok, rfl⟩ := Option.map_eq_some_iff.mp hstep
    exact h.answered hok
  | abort =>
    rw [World.step] at hstep
    by_cases hno : w.aborted ∨ w.phase = .finished
    · rw [if_pos hno] at hstep
      cases hstep
    · rw [if_neg hno] at hstep
      cases hstep
      have haborted : { w with aborted := true }.Tidy mine :=
        ⟨h.sound, h.used_mine, h.current, h.messages_used, h.acquires, h.one_acquire, h.reserve,
          h.tickets, h.reservations, fun _ _ e => (by cases e), h.unanswered, h.waiting⟩
      exact haborted.send_idle rfl (fun _ _ e => by cases e) rfl
  | release =>
    rw [World.step] at hstep
    by_cases hno : w.phase = .entering
    · rw [if_pos hno] at hstep
      cases hstep
    · rw [if_neg hno] at hstep
      cases hstep
      exact h.release
  | reacquire reqId lane maxParallel =>
    rw [World.step] at hstep
    by_cases hno : w.phase = .entering
    · rw [if_pos hno] at hstep
      cases hstep
    · rw [if_neg hno] at hstep
      by_cases hnoop : w.held ∨ w.phase = .finished ∨ w.aborted ∨ w.acquiring ≠ .none
      · rw [if_pos hnoop] at hstep
        cases hstep
        exact h
      · rw [if_neg hnoop] at hstep
        by_cases hnew : mine reqId ∧ reqId ∉ w.used
        · rw [if_pos hnew] at hstep
          cases hstep
          simp only [not_or, Bool.not_eq_true, ne_eq, not_not] at hnoop
          obtain ⟨hheld, hfinished, haborted, hacquiring⟩ := hnoop
          have hphase : w.phase = .running := by
            cases hp : w.phase with
            | entering => exact absurd hp hno
            | running => rfl
            | finished => exact absurd hp hfinished
          exact h.takeBack options maxParallel hphase hheld haborted hacquiring hnew.1 hnew.2
        · rw [if_neg hnew] at hstep
          cases hstep
  | finish =>
    rw [World.step] at hstep
    by_cases hphase : w.phase = .running
    · rw [if_pos hphase] at hstep
      cases hstep
      exact h.conclude
    · rw [if_neg hphase] at hstep
      cases hstep
  | heartbeat =>
    rw [World.step] at hstep
    by_cases hno : w.phase = .finished
    · rw [if_pos hno] at hstep
      cases hstep
    · rw [if_neg hno] at hstep
      cases hstep
      exact h.send_idle rfl (fun _ _ e => by cases e) rfl

/-- A queue that has not heard of the turn. -/
def Unknown (mine : String → Bool) (queue : Inner) : Prop :=
  (∀ t ∈ queue.tickets, mine t.id = false) ∧ ∀ r ∈ queue.reservations, mine r.id = false

theorem start_tidy {mine : String → Bool} {queue : Inner} (hs : queue.Sound)
    (hunknown : Unknown mine queue) (options : WithSlotOptions) {reqId : String} (lane : String)
    (maxParallel : Option UInt32) (hmine : mine reqId = true) :
    (start options queue reqId lane maxParallel).Tidy mine := by
  have hno : ∀ t ∈ queue.tickets, ¬ mine t.id = true := fun t ht e => by
    rw [hunknown.1 t ht] at e
    cases e
  refine ⟨hs, ?_, List.mem_singleton.mpr rfl, ?_, ?_, rfl, ?_, fun t ht e => absurd e (hno t ht),
    ?_, ?_, ?_, ?_⟩
  · intro id hid
    rw [List.mem_singleton.mp hid]
    exact hmine
  · intro m hm
    rw [List.mem_singleton.mp hm]
    exact List.mem_singleton.mpr rfl
  · intro a ha
    cases List.mem_singleton.mp ha
    rfl
  · intro id hid
    cases List.mem_singleton.mp hid
  · intro r hr e
    have := hunknown.2 r hr
    rw [this] at e
    cases e
  · intro hphase
    cases hphase
  · intro _ t ht e
    refine hno t ht ?_
    rw [e]
    exact hmine
  · intro rx hacq
    cases hacq

/-- A run in which every event is orderly. -/
def OrderlyRun (options : WithSlotOptions) (mine : String → Bool) : World → List Event → Prop
  | _, [] => True
  | w, e :: events =>
    w.Orderly e ∧ ∀ w' ∈ w.step options mine e, OrderlyRun options mine w' events

instance decidableOrderlyRun (options : WithSlotOptions) (mine : String → Bool) :
    (w : World) → (events : List Event) → Decidable (OrderlyRun options mine w events)
  | _, [] => .isTrue trivial
  | w, e :: events =>
    have : DecidablePred (fun w' => OrderlyRun options mine w' events) := fun w' =>
      decidableOrderlyRun options mine w' events
    inferInstanceAs (Decidable (w.Orderly e ∧ ∀ w' ∈ w.step options mine e, _))

theorem Tidy.run {mine : String → Bool} {options : WithSlotOptions} {events : List Event}
    {w w' : World} (h : w.Tidy mine) (horderly : OrderlyRun options mine w events)
    (hrun : w.run options mine events = some w') : w'.Tidy mine := by
  induction events generalizing w with
  | nil =>
    cases hrun
    exact h
  | cons e events ih =>
    rw [World.run, List.foldlM_cons] at hrun
    obtain ⟨w₁, hstep, hrest⟩ := Option.bind_eq_some_iff.mp hrun
    exact ih (h.step horderly.1 hstep) (horderly.2 w₁ hstep) hrest

end World

/-! ## What a finished turn leaves -/

/-- In a run whose take-backs are processed in order, a turn that has returned and whose messages
have all been processed has neither a ticket nor a reservation in the queue. -/
theorem finished_turn_gone (options : WithSlotOptions) (mine : String → Bool) (before : List Op)
    (hunknown : World.Unknown mine (InferenceQueue.run before)) (reqId lane : String)
    (maxParallel : Option UInt32) (hmine : mine reqId = true) (events : List Event)
    (horderly : World.OrderlyRun options mine
      (World.start options (InferenceQueue.run before) reqId lane maxParallel) events) (w : World)
    (hrun : (World.start options (InferenceQueue.run before) reqId lane maxParallel).run options mine
      events = some w) (hsettled : w.Settled) : w.Gone mine := by
  have hstart := World.start_tidy (run_sound before) hunknown options lane maxParallel hmine
  exact (hstart.run horderly hrun).gone hsettled

/-- A chat turn's requests: the acquire it enters with, and the one it takes its slot back with. -/
def chatIds (id : String) : Bool := id = "main:1" ∨ id = "main:2"

def chatOptions : WithSlotOptions := ⟨"", "main", .foreground⟩

def chatAcquire : Acquire := ⟨"main:1", "", "local", some 1, "main", ⟨false, .foreground, none⟩, 0⟩

def chatTakeBack : Acquire :=
  ⟨"main:2", "", "local", some 1, "main", ⟨true, .foreground, some "main:1"⟩, 0⟩

def chatStart : World := World.start chatOptions (InferenceQueue.run []) "main:1" "local" (some 1)

/-- The turn gives its slot back, takes it back and ends; every message is processed at once. -/
def orderlyChat : List Event :=
  [.deliver (.acquire chatAcquire) 0, .answered, .release, .deliver (.release "main:1" true) 1,
    .reacquire "main:2" "local" (some 1), .deliver (.acquire chatTakeBack) 2, .answered, .finish,
    .deliver (.release "main:2" false) 3]

/-- The turn is stopped while it takes its slot back, and the cancel overtakes the acquire. -/
def cancelledChat : List Event :=
  [.deliver (.acquire chatAcquire) 0, .answered, .release, .deliver (.release "main:1" true) 1,
    .reacquire "main:2" "local" (some 1), .abort, .deliver (.cancel "main:2") 2,
    .deliver (.acquire chatTakeBack) 3, .answered, .finish, .deliver (.release "main:2" false) 4]

theorem finished_turn_gone_orderlyChat :
    ∃ w, chatStart.run chatOptions chatIds orderlyChat = some w ∧ w.Settled ∧ w.Gone chatIds := by
  have hunknown : World.Unknown chatIds (InferenceQueue.run []) := by
    constructor
    · intro t ht
      cases ht
    · intro r hr
      cases hr
  refine ⟨_, rfl, ⟨rfl, by decide⟩, ?_⟩
  exact finished_turn_gone chatOptions chatIds [] hunknown "main:1" "local" (some 1) (by decide)
    orderlyChat (by decide) _ rfl ⟨rfl, by decide⟩

/-- A take-back refused because its cancel came first leaves the reservation it was to replace: it
outlives the turn. -/
theorem cancelled_takeBack_leaks :
    ∃ w, chatStart.run chatOptions chatIds cancelledChat = some w ∧ w.Settled ∧
      ¬ w.Gone chatIds := by
  refine ⟨_, rfl, ⟨rfl, by decide⟩, ?_⟩
  intro hgone
  have hleft := hgone.2 ⟨"main:1", "local", "main", 1 + leaseTtlMs⟩ (by decide)
  exact absurd hleft (by decide)

end Haruspex.InferenceSlot
