import Haruspex.InferenceQueue.Lanes

/-! Two runs seen from one lane: all the calls, and only those that touch the lane. They show the
same lane at every point, unless the cancellation of a request that has yet to come is pushed out of
those the queue remembers. -/
namespace Haruspex.InferenceQueue
set_option autoImplicit false

/-! ## The calls that touch a lane -/

/-- The ids a list of calls registers. -/
def enqueuedIds (ops : List Op) : List String :=
  ops.filterMap (fun op => match op with
    | .enqueueWith a => some a.reqId
    | _ => none)

/-- The ids registered on a lane. -/
def idsOn (ops : List Op) (lane : String) : List String :=
  ops.filterMap (fun op => match op with
    | .enqueueWith a => if a.lane = lane then some a.reqId else none
    | _ => none)

/-- The ids that matter to a lane: those registered on it, and those whose acquire replaces one of
them. -/
def idsTouching (ops : List Op) (lane : String) : List String :=
  ops.filterMap (fun op => match op with
    | .enqueueWith a =>
      if a.lane = lane ∨ ∃ old ∈ idsOn ops lane, a.admission.replaces = some old then some a.reqId
      else none
    | _ => none)

/-- Whether a call names one of the ids; window closes and sweeps name none and always count. -/
def Op.touches (ids : List String) : Op → Bool
  | .enqueueWith a => a.reqId ∈ ids
  | .cancel reqId => reqId ∈ ids
  | .releaseWith reqId _ _ => reqId ∈ ids
  | .heartbeat reqId _ => reqId ∈ ids
  | .releaseWindow _ => true
  | .sweepExpiredAt _ => true

/-- The call is a cancel whose remembering pushes out that of `id`. -/
def Inner.Forgets (s : Inner) (op : Op) (id : String) : Prop :=
  (∃ reqId, op = .cancel reqId) ∧ id ∈ s.cancelledEarly ∧ id ∉ (s.apply op).cancelledEarly

/-- No cancellation of one of the ids is forgotten in the run before the id's acquire comes. -/
def Remembers (ids : List String) (ops : List Op) : Prop :=
  ∀ pre op rest, ops = pre ++ op :: rest → ∀ a, Op.enqueueWith a ∈ rest → a.reqId ∈ ids →
    ¬ (run pre).Forgets op a.reqId

theorem mem_enqueuedIds {ops : List Op} {a : Acquire} (h : Op.enqueueWith a ∈ ops) :
    a.reqId ∈ enqueuedIds ops := List.mem_filterMap.mpr ⟨_, h, rfl⟩

theorem mem_idsOn {ops : List Op} {lane : String} {a : Acquire} (h : Op.enqueueWith a ∈ ops)
    (hlane : a.lane = lane) : a.reqId ∈ idsOn ops lane :=
  List.mem_filterMap.mpr ⟨_, h, if_pos hlane⟩

theorem idsOn_touching {ops : List Op} {lane id : String} (h : id ∈ idsOn ops lane) :
    id ∈ idsTouching ops lane := by
  obtain ⟨op, hop, hid⟩ := List.mem_filterMap.mp h
  refine List.mem_filterMap.mpr ⟨op, hop, ?_⟩
  cases op with
  | enqueueWith a =>
    dsimp only at hid ⊢
    by_cases e : a.lane = lane
    · rw [if_pos e] at hid
      rw [if_pos (Or.inl e), hid]
    · rw [if_neg e] at hid
      cases hid
  | cancel reqId => cases hid
  | releaseWith reqId reserve now => cases hid
  | heartbeat reqId now => cases hid
  | releaseWindow label => cases hid
  | sweepExpiredAt now => cases hid

theorem replacing_touching {ops : List Op} {lane old : String} {a : Acquire}
    (h : Op.enqueueWith a ∈ ops) (hold : old ∈ idsOn ops lane)
    (hrep : a.admission.replaces = some old) : a.reqId ∈ idsTouching ops lane :=
  List.mem_filterMap.mpr ⟨_, h, if_pos (Or.inr ⟨old, hold, hrep⟩)⟩

/-! ## Cancellations -/

namespace Inner

theorem mem_rememberedEarly (s : Inner) (reqId : String) : reqId ∈ s.rememberedEarly reqId := by
  have hlen : (s.cancelledEarly ++ [reqId]).length - earlyCancelCap ≤ s.cancelledEarly.length := by
    rw [List.length_append, List.length_singleton, earlyCancelCap]
    omega
  rw [rememberedEarly, List.drop_append_of_le_length hlen]
  exact List.mem_append_right _ (List.mem_singleton.mpr rfl)

/-- Which requests not yet in the queue have been cancelled, after one more call. -/
theorem Sound.early_iff {s : Inner} (hs : s.Sound) (op : Op) {id : String}
    (hnew : ∀ t ∈ s.tickets, t.id ≠ id) (hop : ∀ a, op = .enqueueWith a → a.reqId ≠ id)
    (hkeep : ¬ s.Forgets op id) :
    id ∈ (s.apply op).cancelledEarly ↔ id ∈ s.cancelledEarly ∨ op = .cancel id := by
  refine ⟨hs.early_origin op, ?_⟩
  intro h
  cases op with
  | enqueueWith a =>
    have hid := h.resolve_right (fun e => by cases e)
    by_cases hacc : s.accepts a = true
    · rw [apply_accepted hacc, pump_cancelledEarly, enqueued_cancelledEarly]
      exact hid
    · rcases apply_refused (by simpa using hacc) with e | ⟨-, e⟩
      · rw [e]
        exact hid
      · rw [e]
        exact (List.mem_erase_of_ne (Ne.symm (hop a rfl))).mpr hid
  | cancel reqId =>
    rcases h with hid | e
    · by_contra hno
      exact hkeep ⟨⟨reqId, rfl⟩, hid, hno⟩
    · cases e
      rw [apply_cancel_absent hnew]
      exact s.mem_rememberedEarly id
  | releaseWith reqId reserve now =>
    have hid := h.resolve_right (fun e => by cases e)
    by_cases hin : (∃ t ∈ s.tickets, t.id = reqId) ∨ ∃ r ∈ s.reservations, r.id = reqId
    · rw [hs.apply_release reserve now hin, pump_cancelledEarly, leaving_cancelledEarly]
      exact hid
    · obtain ⟨hticket, hres⟩ := not_or.mp hin
      rw [apply_release_absent reserve now (fun t ht e => hticket ⟨t, ht, e⟩)
        (fun r hr e => hres ⟨r, hr, e⟩)]
      exact hid
  | heartbeat reqId now => exact h.resolve_right (fun e => by cases e)
  | releaseWindow label =>
    rw [Inner.apply, releaseWindow, reclaim_cancelledEarly]
    exact h.resolve_right (fun e => by cases e)
  | sweepExpiredAt now =>
    rw [Inner.apply, sweepExpiredAt, reclaim_cancelledEarly]
    exact h.resolve_right (fun e => by cases e)

/-- A request that is not in the queue is not there after a call that is not its acquire. -/
theorem Sound.still_new {s : Inner} (hs : s.Sound) (op : Op) {id : String}
    (hnew : ∀ t ∈ s.tickets, t.id ≠ id) (hop : ∀ a, op = .enqueueWith a → a.reqId ≠ id) :
    ∀ t ∈ (s.apply op).tickets, t.id ≠ id := by
  intro t' ht'
  rcases hs.ticket_origin op ht' with ⟨t, ht, hsame⟩ | ⟨a, rfl, -, hsame⟩
  · rw [hsame.id_eq]
    exact hnew t ht
  · rw [hsame.id_eq]
    exact hop a rfl

end Inner

/-! ## The two runs -/

/-- The state `s` of the run of all the calls `ops` and the state `u` of the run of those that
touch `lane`, with the calls `rest` to come. -/
structure Tracks (ops : List Op) (lane : String) (s u : Inner) (rest : List Op) : Prop where
  same : Inner.SameLane lane s u
  tickets_known : ∀ t ∈ s.tickets, t.lane = lane → t.id ∈ idsOn ops lane
  reservations_known : ∀ r ∈ s.reservations, r.lane = lane → r.id ∈ idsOn ops lane
  coming : ∀ a, Op.enqueueWith a ∈ rest →
    (∀ t ∈ s.tickets, t.id ≠ a.reqId) ∧ ∀ t ∈ u.tickets, t.id ≠ a.reqId
  early : ∀ a, Op.enqueueWith a ∈ rest → a.reqId ∈ idsTouching ops lane →
    (a.reqId ∈ s.cancelledEarly ↔ a.reqId ∈ u.cancelledEarly)

namespace Tracks

variable {ops rest : List Op} {lane : String} {s u : Inner} {op : Op}

/-- A call that does not touch the lane avoids it. -/
theorem avoids (h : Tracks ops lane s u (op :: rest)) (hmem : op ∈ ops)
    (hop : op.touches (idsTouching ops lane) = false) : s.Avoids lane op := by
  have hids : ∀ id ∈ idsOn ops lane, ∀ reqId, reqId ∉ idsTouching ops lane → id ≠ reqId := by
    intro id hid reqId hno e
    exact hno (e ▸ idsOn_touching hid)
  cases op with
  | enqueueWith a =>
    have hno : a.reqId ∉ idsTouching ops lane := by simpa [Op.touches] using hop
    refine ⟨fun hlane => hno (idsOn_touching (mem_idsOn hmem hlane)), ?_⟩
    intro r hr hlane hrep
    exact hno (replacing_touching hmem (h.reservations_known r hr hlane) hrep)
  | cancel reqId =>
    have hno : reqId ∉ idsTouching ops lane := by simpa [Op.touches] using hop
    exact fun t ht hlane => hids _ (h.tickets_known t ht hlane) _ hno
  | releaseWith reqId reserve now =>
    have hno : reqId ∉ idsTouching ops lane := by simpa [Op.touches] using hop
    exact ⟨fun t ht hlane => hids _ (h.tickets_known t ht hlane) _ hno,
      fun r hr hlane => hids _ (h.reservations_known r hr hlane) _ hno⟩
  | heartbeat reqId now =>
    have hno : reqId ∉ idsTouching ops lane := by simpa [Op.touches] using hop
    exact ⟨fun t ht hlane => hids _ (h.tickets_known t ht hlane) _ hno,
      fun r hr hlane => hids _ (h.reservations_known r hr hlane) _ hno⟩
  | releaseWindow label => cases hop
  | sweepExpiredAt now => cases hop

theorem tickets_known_apply (h : Tracks ops lane s u (op :: rest)) (hs : s.Sound) (hmem : op ∈ ops) :
    ∀ t ∈ (s.apply op).tickets, t.lane = lane → t.id ∈ idsOn ops lane := by
  intro t' ht' hlane
  rcases hs.ticket_origin op ht' with ⟨t, ht, hsame⟩ | ⟨a, rfl, -, hsame⟩
  · rw [hsame.id_eq]
    exact h.tickets_known t ht (hsame.lane_eq.symm.trans hlane)
  · rw [hsame.id_eq]
    exact mem_idsOn hmem (hsame.lane_eq.symm.trans hlane)

theorem reservations_known_apply (h : Tracks ops lane s u (op :: rest)) (hs : s.Sound) :
    ∀ r ∈ (s.apply op).reservations, r.lane = lane → r.id ∈ idsOn ops lane := by
  intro r' hr' hlane
  rcases hs.reservation_origin op hr' with ⟨r, hr, hsame⟩ | ⟨reqId, now, rfl, t, ht, -, rfl⟩
  · rw [hsame.id_eq]
    exact h.reservations_known r hr (hsame.lane_eq.symm.trans hlane)
  · exact h.tickets_known t ht hlane

/-- One call of the full run, made in the other run too if it touches the lane. -/
theorem step (h : Tracks ops lane s u (op :: rest)) (hs : s.Sound) (hu : u.Sound)
    (hsc : s.Conserved) (huc : u.Conserved) (hsr : s.DistinctReservations)
    (hur : u.DistinctReservations) (hmem : op ∈ ops)
    (hnodup : (enqueuedIds (op :: rest)).Nodup)
    (hsf : ∀ a, Op.enqueueWith a ∈ rest → a.reqId ∈ idsTouching ops lane → ¬ s.Forgets op a.reqId)
    (huf : op.touches (idsTouching ops lane) = true → ∀ a, Op.enqueueWith a ∈ rest →
      a.reqId ∈ idsTouching ops lane → ¬ u.Forgets op a.reqId) :
    Tracks ops lane (s.apply op)
      (if op.touches (idsTouching ops lane) then u.apply op else u) rest := by
  have hother : ∀ a, Op.enqueueWith a ∈ rest → ∀ b, op = .enqueueWith b → b.reqId ≠ a.reqId := by
    rintro a ha b rfl e
    rw [enqueuedIds, List.filterMap_cons] at hnodup
    exact (List.nodup_cons.mp hnodup).1 (e ▸ mem_enqueuedIds ha)
  have hsnew : ∀ a, Op.enqueueWith a ∈ rest → ∀ t ∈ (s.apply op).tickets, t.id ≠ a.reqId :=
    fun a ha => hs.still_new op (h.coming a (List.mem_cons_of_mem _ ha)).1 (hother a ha)
  have hsearly : ∀ a, Op.enqueueWith a ∈ rest → a.reqId ∈ idsTouching ops lane →
      (a.reqId ∈ (s.apply op).cancelledEarly ↔ a.reqId ∈ s.cancelledEarly ∨ op = .cancel a.reqId) :=
    fun a ha hid => hs.early_iff op (h.coming a (List.mem_cons_of_mem _ ha)).1 (hother a ha)
      (hsf a ha hid)
  by_cases htouch : op.touches (idsTouching ops lane) = true
  · rw [if_pos htouch]
    refine ⟨?_, h.tickets_known_apply hs hmem, h.reservations_known_apply hs, ?_, ?_⟩
    · refine h.same.apply hs hu hsc huc hsr hur ?_
      rintro a rfl
      obtain ⟨hsno, huno⟩ := h.coming a List.mem_cons_self
      have hid : a.reqId ∈ idsTouching ops lane := by simpa [Op.touches] using htouch
      have hearly := h.early a List.mem_cons_self hid
      rw [Bool.eq_iff_iff, u.accepts_iff, s.accepts_iff, hearly]
      exact ⟨fun hu => ⟨hsno, hu.2⟩, fun hs => ⟨huno, hs.2⟩⟩
    · intro a ha
      exact ⟨hsnew a ha, hu.still_new op (h.coming a (List.mem_cons_of_mem _ ha)).2 (hother a ha)⟩
    · intro a ha hid
      have huearly := hu.early_iff op (h.coming a (List.mem_cons_of_mem _ ha)).2 (hother a ha)
        (huf htouch a ha hid)
      rw [hsearly a ha hid, huearly, h.early a (List.mem_cons_of_mem _ ha) hid]
  · rw [if_neg htouch]
    have hno : op.touches (idsTouching ops lane) = false := by simpa using htouch
    have hleft := (h.avoids hmem hno).sameLane hs hsc hsr
    refine ⟨hleft.symm.trans h.same, h.tickets_known_apply hs hmem, h.reservations_known_apply hs,
      fun a ha => ⟨hsnew a ha, (h.coming a (List.mem_cons_of_mem _ ha)).2⟩, ?_⟩
    intro a ha hid
    have hcancel : op ≠ .cancel a.reqId := by
      rintro rfl
      simp [Op.touches, hid] at hno
    rw [hsearly a ha hid, ← h.early a (List.mem_cons_of_mem _ ha) hid]
    simp [hcancel]

end Tracks

theorem run_distinctReservations (ops : List Op) : (run ops).DistinctReservations := by
  induction ops using List.reverseRecOn with
  | nil => exact List.nodup_nil
  | append_singleton ops op ih =>
    rw [run_concat]
    exact ih.apply (run_sound ops) op

/-- The two runs stay alike on the lane all the way. -/
theorem run_tracks (ops : List Op) (lane : String) (hnodup : (enqueuedIds ops).Nodup)
    (hfull : Remembers (idsTouching ops lane) ops)
    (hpart : Remembers (idsTouching ops lane) (ops.filter (Op.touches (idsTouching ops lane))))
    (pre rest : List Op) (h : ops = pre ++ rest) :
    Tracks ops lane (run pre) (run (pre.filter (Op.touches (idsTouching ops lane)))) rest := by
  induction pre using List.reverseRecOn generalizing rest with
  | nil =>
    refine ⟨Inner.SameLane.refl lane _, ?_, ?_, ?_, fun _ _ _ => Iff.rfl⟩
    · intro t ht
      cases ht
    · intro r hr
      cases hr
    · intro a _
      constructor
      · intro t ht
        cases ht
      · intro t ht
        cases ht
  | append_singleton pre op ih =>
    rw [List.append_assoc, List.singleton_append] at h
    have hbefore := ih (op :: rest) h
    have hmem : op ∈ ops := by
      rw [h]
      exact List.mem_append_right _ List.mem_cons_self
    have hids : (enqueuedIds (op :: rest)).Nodup := by
      rw [h, enqueuedIds, List.filterMap_append] at hnodup
      exact hnodup.of_append_right
    have hstep := hbefore.step (run_sound _) (run_sound _) (run_conserved _) (run_conserved _)
      (run_distinctReservations _) (run_distinctReservations _) hmem hids
      (fun a ha hid => hfull pre op rest h a ha hid) ?_
    · rw [run_concat, List.filter_append]
      by_cases htouch : op.touches (idsTouching ops lane) = true
      · rw [if_pos htouch] at hstep
        rw [List.filter_cons_of_pos htouch, List.filter_nil, run_concat]
        exact hstep
      · rw [if_neg htouch] at hstep
        rw [List.filter_cons_of_neg htouch, List.filter_nil, List.append_nil]
        exact hstep
    · intro htouch a ha hid
      have hsplit : ops.filter (Op.touches (idsTouching ops lane)) =
          pre.filter (Op.touches (idsTouching ops lane)) ++
            op :: rest.filter (Op.touches (idsTouching ops lane)) := by
        rw [congrArg (List.filter _) h, List.filter_append, List.filter_cons_of_pos htouch]
      have hin : Op.enqueueWith a ∈ rest.filter (Op.touches (idsTouching ops lane)) :=
        List.mem_filter.mpr ⟨ha, by simpa [Op.touches] using hid⟩
      exact hpart _ op _ hsplit a hin hid

/-- Lane independence of the queue: a call that is about other lanes leaves a lane's view as it
was, and the view follows the calls that touch the lane. -/
theorem lane_independence :
    (∀ ops op lane, (run ops).Avoids lane op →
      (run (ops ++ [op])).onLane lane = (run ops).onLane lane ∧
      ∀ t ∈ (run ops).tickets, t.lane = lane →
        (run (ops ++ [op])).senders t.id = (run ops).senders t.id) ∧
    ∀ ops lane, (enqueuedIds ops).Nodup → Remembers (idsTouching ops lane) ops →
      Remembers (idsTouching ops lane) (ops.filter (Op.touches (idsTouching ops lane))) →
      ∀ pre rest, ops = pre ++ rest → (run pre).onLane lane =
        (run (pre.filter (Op.touches (idsTouching ops lane)))).onLane lane := by
  constructor
  · intro ops op lane havoid
    have hs := run_sound ops
    have hsame := havoid.sameLane hs (run_conserved ops) (run_distinctReservations ops)
    rw [run_concat]
    exact ⟨hsame.onLane hs (hs.apply op), fun t ht hlane => hs.lane_senders hsame ht hlane⟩
  · intro ops lane hnodup hfull hpart pre rest h
    have htracks := run_tracks ops lane hnodup hfull hpart pre rest h
    exact (htracks.same.onLane (run_sound _) (run_sound _)).symm

/-- An acquire on lane `l` whose cancel came first, with as many other cancels in between as the
queue remembers. -/
def forgottenCancel : List Op :=
  .cancel "x" :: List.replicate earlyCancelCap (.cancel "y") ++
    [.enqueueWith ⟨"x", "", "l", some 1, "main", {}, 0⟩]

/-- Without the bound on what is remembered in view, the two runs part: the full run has forgotten
the cancel and admits the request, the other refuses it. -/
theorem forgotten_cancel_parts : (enqueuedIds forgottenCancel).Nodup ∧
    (run forgottenCancel).onLane "l" ≠
      (run (forgottenCancel.filter (Op.touches (idsTouching forgottenCancel "l")))).onLane "l" := by
  refine ⟨by decide, ?_⟩
  intro h
  have hlen := congrArg (fun v => v.tickets.length) h
  revert hlen
  decide +kernel

end Haruspex.InferenceQueue
