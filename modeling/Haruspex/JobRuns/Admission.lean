import Haruspex.JobRuns.Model
import Mathlib.Data.List.Nodup
import Mathlib.Data.List.Perm.Basic

/-! Where a run is: in the queue, started, or taken out of the queue, and in what order. -/
namespace Haruspex.JobRuns
open KeyedMap Runs
set_option autoImplicit false

variable {B R : Type} {host : Host B R}

namespace Runner

variable {r : Runner B R} {queued next : QueuedRun B}

/-- The runs that were started, in order. -/
def begun (r : Runner B R) : List (QueuedRun B) := r.pipelines.map Pipeline.queued

/-! ## Starting -/

@[simp] theorem startRun_pending (queued : QueuedRun B) : (r.startRun host queued).pending = r.pending := by
  unfold startRun
  split <;> [rfl; (split <;> rfl)]

@[simp] theorem startRun_settings (queued : QueuedRun B) : (r.startRun host queued).settings = r.settings := by
  unfold startRun
  split <;> [rfl; (split <;> rfl)]

@[simp] theorem startRun_drains (queued : QueuedRun B) : (r.startRun host queued).drains = r.drains := by
  unfold startRun
  split <;> [rfl; (split <;> rfl)]

@[simp] theorem startRun_admitted (queued : QueuedRun B) :
    (r.startRun host queued).admitted = r.admitted.insert queued.runId (r.admission host queued.job) := by
  unfold startRun
  split <;> [rfl; (split <;> rfl)]

@[simp] theorem startRun_pipelines (queued : QueuedRun B) :
    (r.startRun host queued).pipelines = r.pipelines ++ [⟨queued, r.settings, r.others⟩] := by
  unfold startRun
  split <;> [rfl; (split <;> rfl)]

@[simp] theorem startRun_begun (queued : QueuedRun B) : (r.startRun host queued).begun = r.begun ++ [queued] := by
  rw [begun, startRun_pipelines, List.map_append]
  rfl

/-! ## The queue -/

theorem insertQueued_perm (queued : QueuedRun B) (pending : List (QueuedRun B)) :
    (insertQueued queued pending).Perm (queued :: pending) := by
  unfold insertQueued
  split
  · have hsplit := List.takeWhile_append_dropWhile (p := fun q : QueuedRun B => q.trigger = .chained) (l := pending)
    have hmid := @List.perm_middle _ queued (pending.takeWhile fun q => q.trigger = .chained)
      (pending.dropWhile fun q => q.trigger = .chained)
    rwa [hsplit] at hmid
  · exact List.perm_append_singleton queued pending

/-- The queue after a drain, and what the drain has started of it: `front` was refused, `back` is to come. -/
structure Draining (host : Host B R) (r : Runner B R) (front started back : List (QueuedRun B)) (r' : Runner B R) : Prop where
  pending : r'.pending = front ++ back
  begun : r'.begun = r.begun ++ started
  settings : r'.settings = r.settings
  drains : r'.drains = r.drains

theorem drainNext_draining {front started back : List (QueuedRun B)} {r' : Runner B R}
    (h : Draining host r front started (next :: back) r') (hnodup : ((front ++ next :: back).map QueuedRun.runId).Nodup) :
    (r'.canStart host next.job = true ∧ Draining host r front (started ++ [next]) back (r'.drainNext host next)) ∨
      (r'.canStart host next.job = false ∧ Draining host r (front ++ [next]) started back (r'.drainNext host next)) := by
  unfold drainNext
  cases hstart : r'.canStart host next.job with
  | true =>
    refine Or.inl ⟨rfl, ?_⟩
    rw [if_pos rfl]
    have hother : ∀ q ∈ front ++ back, q.runId ≠ next.runId := by
      intro q hq heq
      rw [List.map_append, List.map_cons] at hnodup
      have hnot := (List.nodup_middle.mp hnodup).notMem
      rw [← List.map_append, List.mem_map] at hnot
      exact hnot ⟨q, hq, heq⟩
    constructor
    · rw [startRun_pending, h.pending, List.filter_append, List.filter_cons_of_neg (by simp), ← List.filter_append]
      exact List.filter_eq_self.mpr fun q hq => decide_eq_true (hother q hq)
    · rw [startRun_begun, ← List.append_assoc, ← h.begun]
      rfl
    · rw [startRun_settings]
      exact h.settings
    · rw [startRun_drains]
      exact h.drains
  | false =>
    refine Or.inr ⟨rfl, ?_⟩
    rw [if_neg Bool.false_ne_true]
    exact ⟨by rw [h.pending, List.append_assoc, List.singleton_append], h.begun, h.settings, h.drains⟩

/-- A drain starts some of the queue, in queue order, and leaves the others as they stood. -/
theorem drain_splits (hnodup : (r.pending.map QueuedRun.runId).Nodup) :
    ∃ left started, Draining host r left started [] (r.drain host) ∧ left.Sublist r.pending ∧
      started.Sublist r.pending ∧ (left ++ started).Perm r.pending := by
  have hloop : ∀ (back front started : List (QueuedRun B)) (r' : Runner B R), Draining host r front started back r' →
      ((front ++ back).map QueuedRun.runId).Nodup →
      ∃ left more, Draining host r (front ++ left) (started ++ more) []
        (back.foldl (fun r next => r.drainNext host next) r') ∧ left.Sublist back ∧ more.Sublist back ∧
          (left ++ more).Perm back := by
    intro back
    induction back with
    | nil =>
      intro front started r' h _
      refine ⟨[], [], ?_, List.Sublist.refl _, List.Sublist.refl _, List.Perm.refl _⟩
      rw [List.append_nil, List.append_nil]
      exact h
    | cons next back ih =>
      intro front started r' h hnodup
      rw [List.foldl_cons]
      obtain ⟨-, hnext⟩ | ⟨-, hnext⟩ := drainNext_draining h hnodup
      · have hrest : ((front ++ back).map QueuedRun.runId).Nodup :=
          hnodup.sublist (((List.sublist_cons_self next back).append_left front).map _)
        obtain ⟨left, more, hdone, hleft, hmore, hperm⟩ := ih front (started ++ [next]) _ hnext hrest
        refine ⟨left, next :: more, ?_, hleft.cons next, hmore.cons_cons next, ?_⟩
        · rwa [List.append_assoc, List.singleton_append] at hdone
        · exact List.perm_middle.trans (hperm.cons next)
      · rw [List.append_cons] at hnodup
        obtain ⟨left, more, hdone, hleft, hmore, hperm⟩ := ih (front ++ [next]) started _ hnext hnodup
        refine ⟨next :: left, more, ?_, hleft.cons_cons next, hmore.cons next, hperm.cons next⟩
        rwa [List.append_assoc, List.singleton_append] at hdone
  obtain ⟨left, started, h⟩ := hloop r.pending [] [] r ⟨rfl, (List.append_nil _).symm, rfl, rfl⟩ hnodup
  exact ⟨left, started, h⟩

/-! ## Taking out of the queue -/

theorem filter_not_append_perm (p : QueuedRun B → Prop) [DecidablePred p] (pending : List (QueuedRun B)) :
    ((pending.filter fun q => ¬ p q) ++ pending.filter fun q => p q).Perm pending := by
  have hperm := List.filter_append_perm (fun q => decide (p q)) pending
  refine List.perm_append_comm.trans ?_
  simpa using hperm

end Runner

namespace World

variable {w : World B R}

/-! ## Every run has one place -/

/-- The runs `enqueue` returned the ids of, by where they are. -/
def placed (w : World B R) : List (QueuedRun B) := w.runner.pending ++ w.runner.begun ++ w.removed

structure Accounted (w : World B R) : Prop where
  places : w.placed.Perm w.returned
  distinct : ((w.created ++ w.returned).map QueuedRun.runId).Nodup
  given : ∀ q ∈ w.created ++ w.returned, q.runId < w.nextRun

theorem accounted_fresh (settings : Settings R) (nextRun : ℕ) : (fresh (B := B) settings nextRun).Accounted :=
  ⟨List.Perm.refl _, List.nodup_nil, List.forall_mem_nil _⟩

theorem Accounted.pending_nodup (h : w.Accounted) : (w.runner.pending.map QueuedRun.runId).Nodup := by
  have hreturned : (w.returned.map QueuedRun.runId).Nodup :=
    h.distinct.sublist ((List.sublist_append_right _ _).map _)
  have hplaced := (h.places.map QueuedRun.runId).nodup_iff.mpr hreturned
  rw [placed, List.append_assoc] at hplaced
  exact hplaced.sublist ((List.sublist_append_left _ _).map _)

/-- A step of the runner that keeps every run in one of the places. -/
theorem Accounted.step (h : w.Accounted) {runner : Runner B R} {removed : List (QueuedRun B)}
    (hplaces : (runner.pending ++ runner.begun ++ removed).Perm w.placed) :
    ({ w with runner := runner, removed := removed } : World B R).Accounted :=
  ⟨hplaces.trans h.places, h.distinct, h.given⟩

theorem placed_drain (h : w.Accounted) {drains : ℕ} {settings : Settings R} :
    let drained := ({ w.runner with drains := drains, settings := settings } : Runner B R).drain host
    (drained.pending ++ drained.begun ++ w.removed).Perm w.placed := by
  obtain ⟨left, started, hdrained, -, -, hperm⟩ :=
    @Runner.drain_splits _ _ host { w.runner with drains := drains, settings := settings } h.pending_nodup
  dsimp only
  rw [hdrained.pending, hdrained.begun, List.append_nil, placed]
  refine List.Perm.append_right _ ?_
  have hswap : (left ++ (w.runner.begun ++ started)).Perm ((left ++ started) ++ w.runner.begun) := by
    rw [List.append_assoc]
    exact List.Perm.append_left left List.perm_append_comm
  exact hswap.trans (List.Perm.append_right _ hperm)

theorem placed_removed (p : QueuedRun B → Prop) [DecidablePred p] :
    ((w.runner.pending.filter fun q => ¬ p q) ++ w.runner.begun ++ (w.removed ++ w.runner.pending.filter fun q => p q)).Perm
      w.placed := by
  rw [placed, List.append_assoc, List.append_assoc, ← List.append_assoc w.runner.begun]
  refine (List.Perm.append_left _ List.perm_append_comm).trans ?_
  rw [← List.append_assoc]
  exact List.Perm.append_right _ (Runner.filter_not_append_perm p w.runner.pending)

theorem placed_place (queued : QueuedRun B) :
    ((w.runner.place host queued).pending ++ (w.runner.place host queued).begun ++ w.removed).Perm (queued :: w.placed) := by
  unfold Runner.place
  split
  · rw [Runner.startRun_pending, Runner.startRun_begun, placed, ← List.append_assoc, List.append_assoc _ [queued],
      List.singleton_append]
    exact List.perm_middle
  · rw [placed]
    exact List.Perm.append_right _ (List.Perm.append_right _ (Runner.insertQueued_perm queued w.runner.pending))

theorem taken_perm {created : List (QueuedRun B)} {queued : QueuedRun B} (hmem : queued ∈ created)
    (hnodup : (created.map QueuedRun.runId).Nodup) :
    (queued :: created.filter fun q => q.runId ≠ queued.runId).Perm created := by
  obtain ⟨before, after, rfl⟩ := List.append_of_mem hmem
  rw [List.map_append, List.map_cons] at hnodup
  have hnot := (List.nodup_middle.mp hnodup).notMem
  rw [← List.map_append, List.mem_map] at hnot
  have hother : ∀ q ∈ before ++ after, decide (q.runId ≠ queued.runId) = true :=
    fun q hq => decide_eq_true fun heq => hnot ⟨q, hq, heq⟩
  rw [List.filter_append, List.filter_cons_of_neg (by simp), ← List.filter_append, List.filter_eq_self.mpr hother]
  exact List.perm_middle.symm

/-! ## What a step does -/

/-- What a step leaves behind, but for what the run view shows. -/
inductive Step (host : Host B R) (w : World B R) (a : Act B R) : World B R → Prop where
  | nothing : Step host w a w
  | create (job : Job B) (trigger : RunTrigger) :
    Step host w a { w with nextRun := w.nextRun + 1, created := w.created ++ [⟨w.nextRun, job, trigger⟩] }
  | goOn (queued : QueuedRun B) (hmem : queued ∈ w.created) :
    Step host w a
      { w with
        runner := w.runner.place host queued
        created := w.created.filter fun q => q.runId ≠ queued.runId
        returned := w.returned ++ [queued] }
  | settle (runId : ℕ) : Step host w a { w with runner := w.runner.onSettled runId }
  | drain (drains : ℕ) (settings : Settings R) :
    Step host w a { w with runner := { w.runner with drains := drains, settings := settings }.drain host }
  | remove (p : QueuedRun B → Prop) [DecidablePred p] :
    Step host w a
      { w with
        runner := { w.runner with pending := w.runner.pending.filter fun q => ¬ p q }
        removed := w.removed ++ w.runner.pending.filter fun q => p q }
  | settings (settings : Settings R)
    (hsettings : a = .changeSettings settings ∨ settings = { w.runner.settings with jobsOneAtATime := true }) :
    Step host w a { w with runner := { w.runner with settings := settings } }
  | view (runs : List RunState) (focusedId : Option ℕ) :
    Step host w a { w with runner := { w.runner with runs := runs, focusedId := focusedId } }

theorem act_step (a : Act B R) (w : World B R) : Step host w a (act host a w) := by
  cases a with
  | create job trigger available =>
    rw [act]
    split
    · exact .create job trigger
    · exact .nothing
  | goOn runId =>
    rw [act]
    split
    · exact .nothing
    · rename_i queued hfound
      have hid : queued.runId = runId := by simpa using List.find?_some hfound
      rw [← hid]
      exact .goOn queued (List.mem_of_find?_eq_some hfound)
  | settle runId => exact .settle runId
  | drainDue =>
    rw [act]
    split
    · exact .nothing
    · exact .drain (w.runner.drains - 1) w.runner.settings
  | removeQueuedRun runId => exact .remove fun q => q.runId = runId
  | removeQueuedRunsForJob jobId => exact .remove fun q => q.job.id = jobId
  | setOneRunAtATime on =>
    cases on with
    | true => exact .settings _ (Or.inr rfl)
    | false => exact .drain w.runner.drains { w.runner.settings with jobsOneAtATime := false }
  | changeSettings settings => exact .settings settings (Or.inl rfl)
  | setStatus runId status =>
    exact .view (w.runner.runs.map fun run => if run.id = runId then { run with status := status } else run)
      w.runner.focusedId
  | clearCurrentRun =>
    rw [act, Runner.clearCurrentRun]
    split
    · exact .view w.runner.runs _
    · split
      · exact .nothing
      · exact .view _ _
  | focusRun runId =>
    rw [act, Runner.focusRun]
    split
    · exact .view w.runner.runs (some runId)
    · exact .nothing

theorem Accounted.after {a : Act B R} {w' : World B R} (h : w.Accounted) (hstep : Step host w a w') : w'.Accounted := by
  cases hstep with
  | nothing => exact h
  | create job trigger =>
    have hperm : (w.created ++ [QueuedRun.mk w.nextRun job trigger] ++ w.returned).Perm
        (QueuedRun.mk w.nextRun job trigger :: (w.created ++ w.returned)) := by
      rw [List.append_assoc, List.singleton_append]
      exact List.perm_middle
    refine ⟨h.places, (hperm.map QueuedRun.runId).nodup_iff.mpr ?_, fun q hq => ?_⟩
    · refine List.nodup_cons.mpr ⟨fun hmem => ?_, h.distinct⟩
      obtain ⟨q, hq, heq⟩ := List.mem_map.mp hmem
      have hlt := h.given q hq
      rw [heq] at hlt
      exact Nat.lt_irrefl _ hlt
    · obtain rfl | hq := List.mem_cons.mp (hperm.mem_iff.mp hq)
      · exact Nat.lt_succ_self w.nextRun
      · exact Nat.lt_succ_of_lt (h.given q hq)
  | goOn queued hmem =>
    have hcreated : (w.created.map QueuedRun.runId).Nodup := h.distinct.sublist ((List.sublist_append_left _ _).map _)
    have hperm : ((w.created.filter fun q => q.runId ≠ queued.runId) ++ (w.returned ++ [queued])).Perm
        (w.created ++ w.returned) := by
      rw [← List.append_assoc]
      refine (List.perm_append_singleton queued _).trans ?_
      exact List.Perm.append_right w.returned (taken_perm hmem hcreated)
    refine ⟨?_, (hperm.map QueuedRun.runId).nodup_iff.mpr h.distinct, fun q hq => h.given q (hperm.mem_iff.mp hq)⟩
    refine (placed_place queued).trans ?_
    exact (h.places.cons queued).trans (List.perm_append_singleton queued w.returned).symm
  | settle runId => exact h.step (List.Perm.refl _)
  | drain drains settings => exact h.step (placed_drain h)
  | remove p => exact h.step (placed_removed p)
  | settings settings => exact h.step (List.Perm.refl _)
  | view runs focusedId => exact h.step (List.Perm.refl _)

theorem run_accounted {steps : List (Act B R)} (h : w.Accounted) : (run (act host) w steps).Accounted := by
  induction steps generalizing w with
  | nil => exact h
  | cons a steps ih => exact ih (h.after (act_step a w))

/-- Every run that `enqueue` returned the id of is in the queue, or was started, or was taken out of the queue, and
only one of these, and only once. -/
theorem every_run_placed (settings : Settings R) (nextRun : ℕ) (steps : List (Act B R)) :
    let w := run (act host) (fresh settings nextRun) steps
    (w.placed.Perm w.returned) ∧ (w.placed.map QueuedRun.runId).Nodup := by
  have h := @run_accounted _ _ host _ steps (accounted_fresh settings nextRun)
  refine ⟨h.places, (h.places.map QueuedRun.runId).nodup_iff.mpr ?_⟩
  exact h.distinct.sublist ((List.sublist_append_right _ _).map _)

end World

end Haruspex.JobRuns

/-! Which runs go on side by side, and that no run is forgotten in the queue. -/
namespace Haruspex.JobRuns
open Exclusive KeyedMap Runs
set_option autoImplicit false

variable {B R : Type} {host : Host B R}

/-- Two runs that must not go on at once: they are of one job, work in one folder, or both interview the user. -/
def Conflict (a b : Admitted) : Prop :=
  a.jobId = b.jobId ∨ (a.asksUser = true ∧ b.asksUser = true) ∨ (a.workingDir ≠ "" ∧ a.workingDir = b.workingDir)

theorem Conflict.symm {a b : Admitted} (h : Conflict a b) : Conflict b a := by
  obtain hjob | ⟨ha, hb⟩ | ⟨hne, hdir⟩ := h
  · exact Or.inl hjob.symm
  · exact Or.inr (Or.inl ⟨hb, ha⟩)
  · exact Or.inr (Or.inr ⟨by rwa [← hdir], hdir.symm⟩)

namespace Runner

variable {r : Runner B R} {job : Job B}

/-! ## What may start -/

/-- A job's lane has a slot free. -/
def Room (host : Host B R) (r : Runner B R) (job : Job B) : Prop :=
  ∀ limit, r.laneConcurrency host job = some limit →
    (r.others.filter fun o => o.lane = r.laneKey host job).length < limit

/-- Beside other runs, a job may start where runs may share the machine, nothing that goes on is in conflict with
it, and its lane has a slot free. -/
def Fits (host : Host B R) (r : Runner B R) (job : Job B) : Prop :=
  r.settings.jobsOneAtATime = false ∧ r.settings.leanMode = false ∧
    (∀ o ∈ r.others, ¬ Conflict (r.admission host job) o) ∧ r.Room host job

theorem canStart_iff : r.canStart host job = true ↔ r.others = [] ∨ r.Fits host job := by
  unfold canStart
  split
  · rename_i h
    simpa using Or.inl (by simpa using h)
  rename_i hothers
  have hne : ¬ r.others = [] := by simpa using hothers
  rw [or_iff_right hne]
  split
  · rename_i h
    simp only [Bool.or_eq_true] at h
    simp only [Bool.false_eq_true, false_iff, Fits]
    rintro ⟨hone, hlean, -⟩
    simp [hone, hlean] at h
  rename_i hshared
  simp only [Bool.or_eq_true, not_or, Bool.not_eq_true] at hshared
  dsimp only
  split
  · rename_i h
    simp only [Bool.false_eq_true, false_iff]
    rintro ⟨-, -, hfree, -⟩
    obtain ⟨o, ho, heq⟩ := List.any_eq_true.mp h
    exact hfree o ho (Or.inl (of_decide_eq_true heq).symm)
  rename_i hjob
  split
  · rename_i h
    simp only [Bool.false_eq_true, false_iff]
    rintro ⟨-, -, hfree, -⟩
    rw [Bool.and_eq_true, List.any_eq_true] at h
    obtain ⟨hme, o, ho, hasks⟩ := h
    exact hfree o ho (Or.inr (Or.inl ⟨hme, hasks⟩))
  rename_i hasks
  split
  · rename_i h
    simp only [Bool.false_eq_true, false_iff]
    rintro ⟨-, -, hfree, -⟩
    rw [Bool.and_eq_true, List.any_eq_true] at h
    obtain ⟨hne, o, ho, heq⟩ := h
    exact hfree o ho (Or.inr (Or.inr ⟨of_decide_eq_true hne, (of_decide_eq_true heq).symm⟩))
  rename_i hdir
  have hfree : ∀ o ∈ r.others, ¬ Conflict (r.admission host job) o := by
    rintro o ho (heq | ⟨hme, ho'⟩ | ⟨hne, heq⟩)
    · exact hjob (List.any_eq_true.mpr ⟨o, ho, decide_eq_true heq.symm⟩)
    · exact hasks (Bool.and_eq_true_iff.mpr ⟨hme, List.any_eq_true.mpr ⟨o, ho, ho'⟩⟩)
    · exact hdir (Bool.and_eq_true_iff.mpr ⟨decide_eq_true hne, List.any_eq_true.mpr ⟨o, ho, decide_eq_true heq.symm⟩⟩)
  have hroom : r.Fits host job ↔ r.Room host job := ⟨fun h => h.2.2.2, fun h => ⟨hshared.1, hshared.2, hfree, h⟩⟩
  rw [hroom, Room]
  cases hlimit : r.laneConcurrency host job with
  | none => simp
  | some limit =>
    simp only [Option.some_inj, forall_eq', admission]
    exact decide_eq_true_iff

/-- Whoever may start may start beside fewer runs. -/
theorem canStart_of_sublist {r' : Runner B R} (hless : r'.others.Sublist r.others) (hsettings : r'.settings = r.settings)
    (h : r.canStart host job = true) : r'.canStart host job = true := by
  rw [canStart_iff] at h ⊢
  obtain hnil | ⟨hone, hlean, hfree, hroom⟩ := h
  · rw [hnil] at hless
    exact Or.inl (List.sublist_nil.mp hless)
  · have hadmission : r'.admission host job = r.admission host job := by
      simp only [admission, laneKey, hsettings]
    refine Or.inr ⟨by rw [hsettings, hone], by rw [hsettings, hlean], fun o ho => ?_, fun limit hlimit => ?_⟩
    · rw [hadmission]
      exact hfree o (hless.subset ho)
    · have hkey : r'.laneKey host job = r.laneKey host job := by simp only [laneKey, hsettings]
      rw [hkey]
      refine lt_of_le_of_lt (hless.filter _).length_le (hroom limit ?_)
      rw [← hlimit, laneConcurrency, laneConcurrency, hsettings]

/-! ## What starting and settling change -/

theorem others_startRun {queued : QueuedRun B} (hnew : queued.runId ∉ r.admitted) :
    (r.startRun host queued).others = r.admission host queued.job :: r.others := by
  rw [others, startRun_admitted, AList.entries_insert_of_notMem hnew]
  rfl

/-- A run is started only where it may start. -/
def Beside (host : Host B R) (p : Pipeline B R) : Prop :=
  p.others = [] ∨ (p.settings.jobsOneAtATime = false ∧ p.settings.leanMode = false ∧
    ∀ limit, (laneFor (host.resolveBackendDescriptor p.settings p.queued.job.model)).2 = some limit →
      (p.others.filter fun o => o.lane = (laneFor (host.resolveBackendDescriptor p.settings p.queued.job.model)).1).length
        < limit)

/-- No two runs that go on are in conflict, and every run was started where it might. -/
structure Apart (host : Host B R) (r : Runner B R) : Prop where
  exclusive : Exclusive Conflict (fun _ => True) r.admitted
  beside : ∀ p ∈ r.pipelines, Beside host p

theorem Apart.startRun (h : r.Apart host) {queued : QueuedRun B} (hstart : r.canStart host queued.job = true) :
    (r.startRun host queued).Apart host := by
  constructor
  · rw [startRun_admitted]
    refine h.exclusive.insert (fun _ _ => Conflict.symm) fun j o ho _ hconflict => ?_
    have hmem : o ∈ r.others := List.mem_map.mpr ⟨⟨j, o⟩, mem_entries.mpr ho, rfl⟩
    obtain hnil | ⟨-, -, hfree, -⟩ := canStart_iff.mp hstart
    · rw [hnil] at hmem
      cases hmem
    · exact hfree o hmem hconflict.symm
  · intro p hp
    rw [startRun_pipelines, List.mem_append, List.mem_singleton] at hp
    obtain hp | rfl := hp
    · exact h.beside p hp
    · obtain hnil | ⟨hone, hlean, -, hroom⟩ := canStart_iff.mp hstart
      · exact Or.inl hnil
      · exact Or.inr ⟨hone, hlean, hroom⟩

theorem Apart.drain (h : r.Apart host) : (r.drain host).Apart host := by
  have hloop : ∀ (queue : List (QueuedRun B)) (r : Runner B R), r.Apart host →
      (queue.foldl (fun r next => r.drainNext host next) r).Apart host := by
    intro queue
    induction queue with
    | nil => exact fun _ h => h
    | cons next queue ih =>
      intro r h
      rw [List.foldl_cons]
      refine ih _ ?_
      unfold drainNext
      split
      · rename_i hstart
        have hqueue : ({ r with pending := r.pending.filter fun q => q.runId ≠ next.runId } : Runner B R).Apart host :=
          ⟨h.exclusive, h.beside⟩
        exact hqueue.startRun hstart
      · exact h
  exact hloop r.pending r h

theorem Apart.place (h : r.Apart host) (queued : QueuedRun B) : (r.place host queued).Apart host := by
  unfold Runner.place
  split
  · rename_i hstart
    exact h.startRun hstart
  · exact ⟨h.exclusive, h.beside⟩

theorem Apart.onSettled (h : r.Apart host) (runId : ℕ) : (r.onSettled runId).Apart host := by
  refine ⟨h.exclusive.shrink fun i o hlookup => ?_, h.beside⟩
  rw [Runner.onSettled, lookup_erase_eq] at hlookup
  split at hlookup
  · cases hlookup
  · exact hlookup

end Runner

namespace World

variable {w w' : World B R}

theorem Step.apart {a : Act B R} (hstep : Step host w a w') (h : w.runner.Apart host) : w'.runner.Apart host := by
  cases hstep with
  | nothing => exact h
  | create job trigger => exact h
  | goOn queued hmem => exact h.place queued
  | settle runId => exact h.onSettled runId
  | drain drains settings => exact Runner.Apart.drain ⟨h.exclusive, h.beside⟩
  | remove p => exact ⟨h.exclusive, h.beside⟩
  | settings settings => exact ⟨h.exclusive, h.beside⟩
  | view runs focusedId => exact ⟨h.exclusive, h.beside⟩

/-- In every interleaving the runs that go on are of different jobs, work in different folders, and at most one of
them interviews the user; and a run was started beside others only where runs may share the machine and its lane had
a slot free. -/
theorem runs_stay_apart (settings : Settings R) (nextRun : ℕ) (steps : List (Act B R)) :
    (run (act host) (fresh settings nextRun) steps).runner.Apart host := by
  have hrun : ∀ w : World B R, w.runner.Apart host → (run (act host) w steps).runner.Apart host := by
    induction steps with
    | nil => exact fun _ h => h
    | cons a steps ih => exact fun w h => ih (act host a w) ((act_step a w).apart h)
  exact hrun _ ⟨exclusive_empty, List.forall_mem_nil _⟩

end World

end Haruspex.JobRuns
