import Haruspex.JobRuns.Admission

/-! The queue of runs: its order, and when it is empty. -/
namespace Haruspex.JobRuns
open KeyedMap Runs
set_option autoImplicit false

variable {B R : Type} {host : Host B R}

namespace Runner

variable {r : Runner B R} {queued next : QueuedRun B}

/-! ## What a drain leaves -/

theorem canStart_startRun (hnew : queued.runId ∉ r.admitted) {job : Job B} (h : r.canStart host job = false) :
    (r.startRun host queued).canStart host job = false := by
  by_contra hstart
  rw [Bool.not_eq_false] at hstart
  have hless : r.others.Sublist (r.startRun host queued).others := by
    rw [others_startRun hnew]
    exact List.sublist_cons_self _ _
  rw [canStart_of_sublist hless (startRun_settings queued).symm hstart] at h
  cases h

/-- Nothing that a drain leaves in the queue may start. -/
theorem drain_refuses (hnodup : (r.pending.map QueuedRun.runId).Nodup) (hnew : ∀ q ∈ r.pending, q.runId ∉ r.admitted) :
    ∀ q ∈ (r.drain host).pending, (r.drain host).canStart host q.job = false := by
  have hloop : ∀ (back front : List (QueuedRun B)) (r : Runner B R), r.pending = front ++ back →
      ((front ++ back).map QueuedRun.runId).Nodup → (∀ q ∈ front ++ back, q.runId ∉ r.admitted) →
      (∀ q ∈ front, r.canStart host q.job = false) →
      ∀ q ∈ (back.foldl (fun r next => r.drainNext host next) r).pending,
        (back.foldl (fun r next => r.drainNext host next) r).canStart host q.job = false := by
    intro back
    induction back with
    | nil =>
      intro front r hpending _ _ hfront q hq
      rw [List.foldl_nil, hpending, List.append_nil] at hq
      exact hfront q hq
    | cons next back ih =>
      intro front r hpending hnodup hnew hfront
      rw [List.foldl_cons]
      have hdraining : Draining host r front [] (next :: back) r := ⟨hpending, (List.append_nil _).symm, rfl, rfl⟩
      obtain ⟨hstart, hnext⟩ | ⟨hrefused, hnext⟩ := drainNext_draining hdraining hnodup
      · have hfresh := hnew next (List.mem_append_right front List.mem_cons_self)
        rw [drainNext, if_pos hstart] at hnext ⊢
        refine ih front _ hnext.pending (hnodup.sublist (((List.sublist_cons_self next back).append_left front).map _))
          (fun q hq => ?_) fun q hq => ?_
        rotate_left
        · exact @canStart_startRun _ _ host { r with pending := r.pending.filter fun q => q.runId ≠ next.runId } next hfresh
            q.job (hfront q hq)
        rw [startRun_admitted, AList.mem_insert, not_or]
        refine ⟨fun heq => ?_, hnew q (((List.sublist_cons_self next back).append_left front).subset hq)⟩
        rw [List.map_append, List.map_cons] at hnodup
        have hnot := (List.nodup_middle.mp hnodup).notMem
        rw [← List.map_append] at hnot
        exact hnot (List.mem_map.mpr ⟨q, hq, heq⟩)
      · rw [drainNext, if_neg (Bool.eq_false_iff.mp hrefused)] at hnext ⊢
        rw [List.append_cons] at hpending hnodup hnew
        refine ih (front ++ [next]) r hpending hnodup hnew fun q hq => ?_
        obtain hq | hq := List.mem_append.mp hq
        · exact hfront q hq
        · rw [List.mem_singleton.mp hq]
          exact hrefused
  exact hloop r.pending [] r rfl hnodup hnew (List.forall_mem_nil _)

end Runner

namespace World

variable {w w' : World B R}

/-! ## Ids of runs that go on -/

structure Tracked (w : World B R) : Prop where
  accounted : w.Accounted
  known : ∀ id ∈ w.runner.admitted, ∃ q ∈ w.runner.begun, q.runId = id

theorem Tracked.not_admitted (h : w.Tracked) {q : QueuedRun B} (hq : q ∈ w.created ++ w.runner.pending) :
    q.runId ∉ w.runner.admitted := by
  intro hmem
  obtain ⟨started, hstarted, heq⟩ := h.known q.runId hmem
  have hperm : (w.created ++ w.placed).Perm (w.created ++ w.returned) := List.Perm.append_left _ h.accounted.places
  have hnodup := (hperm.map QueuedRun.runId).nodup_iff.mpr h.accounted.distinct
  have hsub : (w.created ++ w.runner.pending ++ w.runner.begun).Sublist (w.created ++ w.placed) := by
    rw [placed, List.append_assoc, List.append_assoc]
    exact List.Sublist.append_left (List.Sublist.append_left (List.sublist_append_left _ _) _) _
  have hdisjoint := hnodup.sublist (hsub.map QueuedRun.runId)
  rw [List.map_append] at hdisjoint
  exact (List.disjoint_of_nodup_append hdisjoint) (List.mem_map.mpr ⟨q, hq, rfl⟩) (List.mem_map.mpr ⟨started, hstarted, heq⟩)

theorem known_startRun {r : Runner B R} (h : ∀ id ∈ r.admitted, ∃ q ∈ r.begun, q.runId = id) (queued : QueuedRun B) :
    ∀ id ∈ (r.startRun host queued).admitted, ∃ q ∈ (r.startRun host queued).begun, q.runId = id := by
  intro id hid
  rw [Runner.startRun_begun]
  rw [Runner.startRun_admitted, AList.mem_insert] at hid
  obtain rfl | hid := hid
  · exact ⟨queued, List.mem_append_right _ (List.mem_singleton_self queued), rfl⟩
  · obtain ⟨q, hq, heq⟩ := h id hid
    exact ⟨q, List.mem_append_left _ hq, heq⟩

theorem known_drain {r : Runner B R} (h : ∀ id ∈ r.admitted, ∃ q ∈ r.begun, q.runId = id) :
    ∀ id ∈ (r.drain host).admitted, ∃ q ∈ (r.drain host).begun, q.runId = id := by
  have hloop : ∀ (queue : List (QueuedRun B)) (r : Runner B R), (∀ id ∈ r.admitted, ∃ q ∈ r.begun, q.runId = id) →
      ∀ id ∈ (queue.foldl (fun r next => r.drainNext host next) r).admitted,
        ∃ q ∈ (queue.foldl (fun r next => r.drainNext host next) r).begun, q.runId = id := by
    intro queue
    induction queue with
    | nil => exact fun _ h => h
    | cons next queue ih =>
      intro r h
      rw [List.foldl_cons]
      refine ih _ ?_
      unfold Runner.drainNext
      split
      · exact @known_startRun _ _ host { r with pending := r.pending.filter fun q => q.runId ≠ next.runId } h next
      · exact h
  exact hloop r.pending r h

theorem Tracked.after {a : Act B R} (h : w.Tracked) (hstep : Step host w a w') : w'.Tracked := by
  refine ⟨h.accounted.after hstep, ?_⟩
  cases hstep with
  | nothing => exact h.known
  | create job trigger => exact h.known
  | goOn queued hmem =>
    dsimp only
    unfold Runner.place
    split
    · exact known_startRun h.known queued
    · exact h.known
  | settle runId =>
    intro id hid
    exact h.known id (AList.mem_erase.mp hid).2
  | drain drains settings =>
    exact @known_drain _ _ host { w.runner with drains := drains, settings := settings } h.known
  | remove p => exact h.known
  | settings settings => exact h.known
  | view runs focusedId => exact h.known

theorem tracked_fresh (settings : Settings R) (nextRun : ℕ) : (fresh (B := B) settings nextRun).Tracked :=
  ⟨accounted_fresh settings nextRun, fun id hid => absurd hid (AList.notMem_empty id)⟩

/-! ## Nothing is forgotten -/

/-- Where no drain is to come, a run waits only beside others. -/
def Idle (w : World B R) : Prop := w.runner.drains = 0 → w.runner.others = [] → w.runner.pending = []

/-- Where no drain is to come, a run waits only where it may not start. -/
def Waits (host : Host B R) (w : World B R) : Prop :=
  w.runner.drains = 0 → ∀ q ∈ w.runner.pending, w.runner.canStart host q.job = false

/-- New settings that let no job start that might not start before, such as fewer streams, or lean mode. -/
def Tightens (host : Host B R) (w : World B R) : Act B R → Prop
  | .changeSettings settings =>
    ∀ job, ({ w.runner with settings := settings } : Runner B R).canStart host job = true →
      w.runner.canStart host job = true
  | _ => True

theorem others_ne_nil {r : Runner B R} {job : Job B} (h : r.canStart host job = false) : r.others ≠ [] := by
  intro hnil
  rw [Runner.canStart_iff.mpr (Or.inl hnil)] at h
  cases h

theorem drained_waits (h : w.Tracked) {drains : ℕ} {settings : Settings R} :
    let drained := ({ w.runner with drains := drains, settings := settings } : Runner B R).drain host
    ∀ q ∈ drained.pending, drained.canStart host q.job = false :=
  @Runner.drain_refuses _ _ host { w.runner with drains := drains, settings := settings } h.accounted.pending_nodup
    fun _ hq => h.not_admitted (List.mem_append_right _ hq)

theorem Idle.after {a : Act B R} (hidle : w.Idle) (h : w.Tracked) (hstep : Step host w a w') : w'.Idle := by
  cases hstep with
  | nothing => exact hidle
  | create job trigger => exact hidle
  | goOn queued hmem =>
    intro _ hothers
    dsimp only at hothers ⊢
    unfold Runner.place at hothers ⊢
    split at hothers
    · rw [Runner.others_startRun (h.not_admitted (List.mem_append_left _ hmem))] at hothers
      cases hothers
    · rename_i hrefused
      exact absurd hothers (others_ne_nil (Bool.eq_false_iff.mpr hrefused))
  | settle runId =>
    intro hdrains _
    cases hpending : w.runner.pending with
    | nil => simp [Runner.onSettled, hpending]
    | cons q queue => simp [Runner.onSettled, hpending] at hdrains
  | drain drains settings =>
    intro _ hothers
    refine List.eq_nil_iff_forall_not_mem.mpr fun q hq => ?_
    exact others_ne_nil (drained_waits h q hq) hothers
  | remove p =>
    intro hdrains hothers
    have hnil := hidle hdrains hothers
    simp [hnil]
  | settings settings => exact hidle
  | view runs focusedId => exact hidle

theorem Waits.after {a : Act B R} (hwaits : w.Waits host) (h : w.Tracked) (htight : Tightens host w a)
    (hstep : Step host w a w') : w'.Waits host := by
  cases hstep with
  | nothing => exact hwaits
  | create job trigger => exact hwaits
  | goOn queued hmem =>
    intro hdrains q hq
    dsimp only at hdrains hq ⊢
    unfold Runner.place at hdrains hq ⊢
    split at hdrains
    · rename_i hstart
      rw [if_pos hstart] at hq ⊢
      rw [Runner.startRun_pending] at hq
      rw [Runner.startRun_drains] at hdrains
      exact Runner.canStart_startRun (h.not_admitted (List.mem_append_left _ hmem)) (hwaits hdrains q hq)
    · rename_i hrefused
      rw [if_neg hrefused] at hq ⊢
      obtain rfl | hq := List.mem_cons.mp ((Runner.insertQueued_perm queued w.runner.pending).mem_iff.mp hq)
      · exact Bool.eq_false_iff.mpr hrefused
      · exact hwaits hdrains q hq
  | settle runId =>
    intro hdrains q hq
    have hpending : q ∈ w.runner.pending := hq
    cases hqueue : w.runner.pending with
    | nil =>
      rw [hqueue] at hpending
      cases hpending
    | cons first queue => simp [Runner.onSettled, hqueue] at hdrains
  | drain drains settings => exact fun _ => drained_waits h
  | remove p => exact fun hdrains q hq => hwaits hdrains q (List.mem_of_mem_filter hq)
  | settings settings hsettings =>
    intro hdrains q hq
    have hrefused := hwaits hdrains q hq
    refine Bool.eq_false_iff.mpr fun hstart => ?_
    obtain rfl | rfl := hsettings
    · rw [htight q.job hstart] at hrefused
      cases hrefused
    · obtain hnil | ⟨hone, -⟩ := Runner.canStart_iff.mp hstart
      · exact others_ne_nil hrefused hnil
      · cases hone
  | view runs focusedId => exact hwaits

/-- Where nothing goes on and no drain is to come, the queue is empty. Where settings only ever change by **One run at
a time**, or let no more jobs start, no run in the queue could start but for a drain that is to come. -/
theorem none_forgotten (settings : Settings R) (nextRun : ℕ) (steps : List (Act B R)) :
    (run (act host) (fresh settings nextRun) steps).Idle ∧
      (EveryStep (act host) (fresh settings nextRun) steps (Tightens host) →
        (run (act host) (fresh settings nextRun) steps).Waits host) := by
  have hidle : ∀ (steps : List (Act B R)) (w : World B R), w.Tracked ∧ w.Idle → (run (act host) w steps).Idle := by
    intro steps
    induction steps with
    | nil => exact fun _ h => h.2
    | cons a steps ih =>
      exact fun w h => ih (act host a w) ⟨h.1.after (act_step a w), h.2.after h.1 (act_step a w)⟩
  refine ⟨hidle steps _ ⟨tracked_fresh settings nextRun, fun _ _ => rfl⟩, fun htight => ?_⟩
  have hkeeps := @run_keeps _ _ (act host) _ _ (fun w : World B R => w.Tracked ∧ w.Waits host)
    (fun w a h ha => ⟨h.1.after (act_step a w), h.2.after h.1 ha (act_step a w)⟩)
    _ ⟨tracked_fresh settings nextRun, fun _ => List.forall_mem_nil _⟩ htight
  exact hkeeps.2

/-! ## Order -/

def isChained (q : QueuedRun B) : Bool := q.trigger = .chained

/-- Chained runs stand first, and of each kind those stand first that were put there first. -/
def Ordered (w : World B R) (pending : List (QueuedRun B)) : Prop :=
  ∃ chained others, pending = chained ++ others ∧ chained.Sublist (w.returned.filter isChained) ∧
    others.Sublist (w.returned.filter fun q => !isChained q)

theorem Ordered.sublist {pending left : List (QueuedRun B)} (h : w.Ordered pending) (hleft : left.Sublist pending) :
    w.Ordered left := by
  obtain ⟨chained, others, rfl, hchained, hothers⟩ := h
  obtain ⟨left₁, left₂, rfl, h₁, h₂⟩ := List.sublist_append_iff.mp hleft
  exact ⟨left₁, left₂, rfl, h₁.trans hchained, h₂.trans hothers⟩

theorem Ordered.insert {w' : World B R} {pending : List (QueuedRun B)} (h : w.Ordered pending) {queued : QueuedRun B}
    (hreturned : w'.returned = w.returned ++ [queued]) : w'.Ordered (Runner.insertQueued queued pending) := by
  obtain ⟨chained, others, rfl, hchained, hothers⟩ := h
  rw [Ordered, hreturned, List.filter_append, List.filter_append]
  unfold Runner.insertQueued
  have hfirst : ∀ q ∈ chained, decide (q.trigger = .chained) = true := fun q hq => (List.mem_filter.mp (hchained.subset hq)).2
  have hlast : ∀ q ∈ others, decide (q.trigger = .chained) = false :=
    fun q hq => by simpa [isChained] using (List.mem_filter.mp (hothers.subset hq)).2
  have hnone : others.takeWhile (fun q => decide (q.trigger = .chained)) = [] := by
    cases others with
    | nil => rfl
    | cons q others => exact List.takeWhile_cons_of_neg (by simp [hlast q List.mem_cons_self])
  split
  · rename_i hkind
    refine ⟨chained ++ [queued], others, ?_, ?_, hothers.trans (List.sublist_append_left _ _)⟩
    · rw [List.takeWhile_append_of_pos hfirst, hnone, List.append_nil, List.dropWhile_append_of_pos hfirst]
      cases others with
      | nil => rw [List.append_nil, List.dropWhile_nil]
      | cons q others =>
        rw [List.dropWhile_cons_of_neg (by simp [hlast q List.mem_cons_self]), List.append_assoc, List.singleton_append]
    · refine hchained.append ?_
      rw [List.filter_cons_of_pos (by simpa [isChained] using hkind)]
      exact List.Sublist.refl _
  · rename_i hkind
    refine ⟨chained, others ++ [queued], List.append_assoc _ _ _, hchained.trans (List.sublist_append_left _ _), ?_⟩
    refine hothers.append ?_
    rw [List.filter_cons_of_pos (by simpa [isChained] using hkind)]
    exact List.Sublist.refl _

theorem Ordered.after {a : Act B R} (hordered : w.Ordered w.runner.pending) (h : w.Tracked) (hstep : Step host w a w') :
    w'.Ordered w'.runner.pending := by
  cases hstep with
  | nothing => exact hordered
  | create job trigger => exact hordered
  | goOn queued hmem =>
    dsimp only
    unfold Runner.place
    split
    · rw [Runner.startRun_pending]
      obtain ⟨chained, others, hpending, hchained, hothers⟩ := hordered
      refine ⟨chained, others, hpending, hchained.trans ?_, hothers.trans ?_⟩
      · exact (List.sublist_append_left w.returned [queued]).filter _
      · exact (List.sublist_append_left w.returned [queued]).filter _
    · exact hordered.insert rfl
  | settle runId => exact hordered
  | drain drains settings =>
    obtain ⟨left, started, hdrained, hleft, -⟩ :=
      @Runner.drain_splits _ _ host { w.runner with drains := drains, settings := settings } h.accounted.pending_nodup
    dsimp only
    rw [hdrained.pending, List.append_nil]
    exact hordered.sublist hleft
  | remove p => exact hordered.sublist List.filter_sublist
  | settings settings => exact hordered
  | view runs focusedId => exact hordered

/-- In the queue chained runs stand before all others, each kind in the order `enqueue` put them there; and a drain
starts runs in queue order, leaving in the queue, as they stood, just those that may not start beside the others. -/
theorem queue_in_order (settings : Settings R) (nextRun : ℕ) (steps : List (Act B R)) :
    let w := run (act host) (fresh settings nextRun) steps
    w.Ordered w.runner.pending ∧
      ∃ left started, (w.runner.drain host).pending = left ∧ (w.runner.drain host).begun = w.runner.begun ++ started ∧
        left.Sublist w.runner.pending ∧ started.Sublist w.runner.pending ∧ (left ++ started).Perm w.runner.pending ∧
          ∀ q ∈ left, (w.runner.drain host).canStart host q.job = false := by
  have hrun : ∀ (steps : List (Act B R)) (w : World B R), w.Tracked ∧ w.Ordered w.runner.pending →
      (run (act host) w steps).Tracked ∧ (run (act host) w steps).Ordered (run (act host) w steps).runner.pending := by
    intro steps
    induction steps with
    | nil => exact fun _ h => h
    | cons a steps ih =>
      exact fun w h => ih (act host a w) ⟨h.1.after (act_step a w), h.2.after h.1 (act_step a w)⟩
  obtain ⟨htracked, hordered⟩ := hrun steps (fresh settings nextRun)
    ⟨tracked_fresh settings nextRun, [], [], rfl, List.nil_sublist _, List.nil_sublist _⟩
  refine ⟨hordered, ?_⟩
  obtain ⟨left, started, hdrained, hleft, hstarted, hperm⟩ :=
    @Runner.drain_splits _ _ host (run (act host) (fresh settings nextRun) steps).runner htracked.accounted.pending_nodup
  have hpending := hdrained.pending
  rw [List.append_nil] at hpending
  refine ⟨left, started, hpending, hdrained.begun, hleft, hstarted, hperm, fun q hq => ?_⟩
  rw [← hpending] at hq
  exact Runner.drain_refuses htracked.accounted.pending_nodup
    (fun q hq => htracked.not_admitted (List.mem_append_right _ hq)) q hq

end World

end Haruspex.JobRuns
