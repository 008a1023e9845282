import Haruspex.JobRuns.Queue

/-! What the run view holds: the runs that go on, and the run it shows. -/
namespace Haruspex.JobRuns
open KeyedMap Runs
set_option autoImplicit false

variable {B R : Type} {host : Host B R}

namespace Runner

variable {r : Runner B R}

/-- Every run that goes on is there to be shown, and so is the one that is. -/
structure Shows (r : Runner B R) : Prop where
  admitted : ∀ id ∈ r.admitted, id ∈ r.runs.map RunState.id
  focused : ∀ id, r.focusedId = some id → id ∈ r.runs.map RunState.id

/-- Of the runs that have settled, only the one in view is held. -/
def HoldsNoOther (r : Runner B R) : Prop := ∀ x ∈ r.runs, x.id ∈ r.admitted ∨ r.focusedId = some x.id

theorem getCurrentRun_some {shown : RunState} (h : r.getCurrentRun = some shown) :
    r.focusedId = some shown.id ∧ shown ∈ r.runs := by
  refine ⟨?_, List.mem_of_find?_eq_some h⟩
  have hfocused := List.find?_some h
  exact (of_decide_eq_true hfocused).symm

theorem getCurrentRun_none (h : r.getCurrentRun = none) (hshows : r.Shows) : r.focusedId = none := by
  cases hfocused : r.focusedId with
  | none => rfl
  | some id =>
    obtain ⟨x, hx, heq⟩ := List.mem_map.mp (hshows.focused id hfocused)
    have hno := List.find?_eq_none.mp h x hx
    rw [heq, hfocused] at hno
    exact absurd (decide_eq_true rfl) hno

theorem isSome_lookup {m : Dict ℕ Admitted} {id : ℕ} : (m.lookup id).isSome = true ↔ id ∈ m := AList.lookup_isSome

/-! ## Starting -/

/-- The runs that a start leaves, with the new one. -/
theorem startRun_runs (hshows : r.Shows) (queued : QueuedRun B) :
    (∀ x ∈ r.runs, x.id ∈ (r.startRun host queued).admitted → x ∈ (r.startRun host queued).runs) ∧
      queued.runId ∈ (r.startRun host queued).runs.map RunState.id ∧
        ((r.startRun host queued).focusedId = some queued.runId ∨
          (r.startRun host queued).focusedId = r.focusedId ∧ ∀ x ∈ r.runs, x ∈ (r.startRun host queued).runs) ∧
          ∀ x ∈ (r.startRun host queued).runs, x.id = queued.runId ∨ (x ∈ r.runs ∧
            (r.focusedId = some x.id → x.id ∈ (r.startRun host queued).admitted ∨
              (r.startRun host queued).focusedId = some x.id)) := by
  rw [startRun_admitted]
  unfold startRun
  cases hshown : r.getCurrentRun with
  | none =>
    have hfocused := getCurrentRun_none hshown hshows
    refine ⟨fun x hx _ => List.mem_append_left _ hx, by simp, Or.inl rfl, fun x hx => ?_⟩
    obtain hx | hx := List.mem_append.mp hx
    · exact Or.inr ⟨hx, fun h => by rw [hfocused] at h; cases h⟩
    · rw [List.mem_singleton.mp hx]
      exact Or.inl rfl
  | some shown =>
    obtain ⟨hfocused, -⟩ := getCurrentRun_some hshown
    dsimp only
    split
    · refine ⟨fun x hx _ => List.mem_append_left _ hx, by simp, Or.inr ⟨rfl, fun x hx => List.mem_append_left _ hx⟩,
        fun x hx => ?_⟩
      obtain hx | hx := List.mem_append.mp hx
      · exact Or.inr ⟨hx, fun h => Or.inr h⟩
      · rw [List.mem_singleton.mp hx]
        exact Or.inl rfl
    · refine ⟨fun x hx hadmitted => ?_, by simp, Or.inl rfl, fun x hx => ?_⟩
      · refine List.mem_append_left _ (List.mem_filter.mpr ⟨hx, ?_⟩)
        rw [Bool.or_eq_true]
        exact Or.inr (isSome_lookup.mpr hadmitted)
      · obtain hx | hx := List.mem_append.mp hx
        · obtain ⟨hx, hkept⟩ := List.mem_filter.mp hx
          refine Or.inr ⟨hx, fun h => Or.inl ?_⟩
          rw [hfocused, Option.some_inj] at h
          rw [Bool.or_eq_true, decide_eq_true_eq] at hkept
          exact isSome_lookup.mp (hkept.resolve_left fun hne => hne h.symm)
        · rw [List.mem_singleton.mp hx]
          exact Or.inl rfl

theorem Shows.startRun (h : r.Shows) (queued : QueuedRun B) : (r.startRun host queued).Shows := by
  obtain ⟨hkept, hnew, hfocus, -⟩ := @startRun_runs _ _ host _ h queued
  constructor
  · intro id hid
    by_cases heq : id = queued.runId
    · rw [heq]
      exact hnew
    · have hold : id ∈ r.admitted := by
        rw [startRun_admitted, AList.mem_insert] at hid
        exact hid.resolve_left heq
      obtain ⟨x, hx, rfl⟩ := List.mem_map.mp (h.admitted id hold)
      exact List.mem_map.mpr ⟨x, hkept x hx hid, rfl⟩
  · intro id hid
    obtain hnow | ⟨hsame, hall⟩ := hfocus
    · rw [hnow, Option.some_inj] at hid
      rw [← hid]
      exact hnew
    · rw [hsame] at hid
      obtain ⟨x, hx, rfl⟩ := List.mem_map.mp (h.focused id hid)
      exact List.mem_map.mpr ⟨x, hall x hx, rfl⟩

theorem HoldsNoOther.startRun (h : r.HoldsNoOther) (hshows : r.Shows) (queued : QueuedRun B) :
    (r.startRun host queued).HoldsNoOther := by
  obtain ⟨-, -, -, hheld⟩ := @startRun_runs _ _ host _ hshows queued
  intro x hx
  obtain hnew | ⟨hold, hfocused⟩ := hheld x hx
  · rw [startRun_admitted, AList.mem_insert]
    exact Or.inl (Or.inl hnew)
  · obtain hadmitted | hshown := h x hold
    · rw [startRun_admitted, AList.mem_insert]
      exact Or.inl (Or.inr hadmitted)
    · exact hfocused hshown

theorem Shows.drain (h : r.Shows) : (r.drain host).Shows ∧ (r.HoldsNoOther → (r.drain host).HoldsNoOther) := by
  have hloop : ∀ (queue : List (QueuedRun B)) (r : Runner B R), r.Shows →
      (queue.foldl (fun r next => r.drainNext host next) r).Shows ∧
        (r.HoldsNoOther → (queue.foldl (fun r next => r.drainNext host next) r).HoldsNoOther) := by
    intro queue
    induction queue with
    | nil => exact fun _ h => ⟨h, id⟩
    | cons next queue ih =>
      intro r h
      rw [List.foldl_cons]
      unfold drainNext
      split
      · have hqueue : ({ r with pending := r.pending.filter fun q => q.runId ≠ next.runId } : Runner B R).Shows :=
          ⟨h.admitted, h.focused⟩
        obtain ⟨hshows, hholds⟩ := ih _ (@Shows.startRun _ _ host _ hqueue next)
        exact ⟨hshows, fun hno => hholds
          (@HoldsNoOther.startRun _ _ host { r with pending := r.pending.filter fun q => q.runId ≠ next.runId } hno hqueue next)⟩
      · exact ih r h
  exact hloop r.pending r h

/-! ## The other steps -/

theorem Shows.place (h : r.Shows) (queued : QueuedRun B) :
    (r.place host queued).Shows ∧ (r.HoldsNoOther → (r.place host queued).HoldsNoOther) := by
  unfold Runner.place
  split
  · exact ⟨h.startRun queued, fun hno => hno.startRun h queued⟩
  · exact ⟨⟨h.admitted, h.focused⟩, id⟩

theorem Shows.onSettled (h : r.Shows) (runId : ℕ) :
    (r.onSettled runId).Shows ∧ (r.HoldsNoOther → (r.onSettled runId).HoldsNoOther) := by
  refine ⟨⟨fun id hid => ?_, fun id hid => ?_⟩, fun hno x hx => ?_⟩
  · obtain ⟨hne, hold⟩ := AList.mem_erase.mp hid
    obtain ⟨x, hx, rfl⟩ := List.mem_map.mp (h.admitted id hold)
    refine List.mem_map.mpr ⟨x, ?_, rfl⟩
    unfold Runner.onSettled
    dsimp only
    split
    · exact List.mem_filter.mpr ⟨hx, decide_eq_true hne⟩
    · exact hx
  · obtain ⟨x, hx, rfl⟩ := List.mem_map.mp (h.focused id hid)
    refine List.mem_map.mpr ⟨x, ?_, rfl⟩
    have hfocused : r.focusedId = some x.id := hid
    unfold Runner.onSettled
    dsimp only
    split
    · rename_i hother
      refine List.mem_filter.mpr ⟨hx, decide_eq_true fun heq => hother ?_⟩
      rw [hfocused, heq]
    · exact hx
  · unfold Runner.onSettled at hx ⊢
    dsimp only at hx ⊢
    split at hx
    · obtain ⟨hx, hne⟩ := List.mem_filter.mp hx
      obtain hadmitted | hfocused := hno x hx
      · exact Or.inl (AList.mem_erase.mpr ⟨of_decide_eq_true hne, hadmitted⟩)
      · exact Or.inr hfocused
    · rename_i hsame
      obtain hadmitted | hfocused := hno x hx
      · by_cases heq : x.id = runId
        · rw [heq]
          exact Or.inr (not_not.mp hsame)
        · exact Or.inl (AList.mem_erase.mpr ⟨heq, hadmitted⟩)
      · exact Or.inr hfocused

theorem Shows.setStatus (h : r.Shows) (runId : ℕ) (status : RunStatus) :
    (r.setStatus runId status).Shows ∧ (r.HoldsNoOther → (r.setStatus runId status).HoldsNoOther) := by
  have hid : ∀ run : RunState, (if run.id = runId then { run with status := status } else run).id = run.id := by
    intro run
    split <;> rfl
  have hids : (r.setStatus runId status).runs.map RunState.id = r.runs.map RunState.id := by
    rw [Runner.setStatus, List.map_map]
    exact List.map_congr_left fun run _ => hid run
  refine ⟨⟨fun id hmem => ?_, fun id hmem => ?_⟩, fun hno x hx => ?_⟩
  · rw [hids]
    exact h.admitted id hmem
  · rw [hids]
    exact h.focused id hmem
  · obtain ⟨run, hrun, rfl⟩ := List.mem_map.mp hx
    rw [hid run]
    exact hno run hrun

theorem Shows.clearCurrentRun (h : r.Shows) :
    r.clearCurrentRun.Shows ∧ (r.HoldsNoOther → r.clearCurrentRun.HoldsNoOther) := by
  unfold Runner.clearCurrentRun
  cases hshown : r.getCurrentRun with
  | none =>
    have hfocused := getCurrentRun_none hshown h
    refine ⟨⟨h.admitted, fun id hid => ?_⟩, fun hno x hx => ?_⟩
    · obtain ⟨x, hx, rfl⟩ := Option.map_eq_some_iff.mp hid
      exact List.mem_map.mpr ⟨x, List.mem_of_mem_filter (List.mem_of_head? hx), rfl⟩
    · obtain hadmitted | hthis := hno x hx
      · exact Or.inl hadmitted
      · rw [hfocused] at hthis
        cases hthis
  | some shown =>
    obtain ⟨hfocused, -⟩ := getCurrentRun_some hshown
    dsimp only
    split
    · exact ⟨h, id⟩
    have hleft : ∀ x ∈ r.runs, x.id ∈ r.admitted ∨ x.id ≠ shown.id →
        x ∈ if (r.admitted.lookup shown.id).isSome = true then r.runs else r.runs.filter fun x => x.id ≠ shown.id := by
      intro x hx hwhy
      split
      · exact hx
      · rename_i hgone
        refine List.mem_filter.mpr ⟨hx, decide_eq_true fun heq => ?_⟩
        obtain hadmitted | hne := hwhy
        · rw [heq] at hadmitted
          exact hgone (isSome_lookup.mpr hadmitted)
        · exact hne heq
    refine ⟨⟨fun id hid => ?_, fun id hid => ?_⟩, fun hno x hx => ?_⟩
    · obtain ⟨x, hx, rfl⟩ := List.mem_map.mp (h.admitted id hid)
      exact List.mem_map.mpr ⟨x, hleft x hx (Or.inl hid), rfl⟩
    · obtain ⟨x, hx, rfl⟩ := Option.map_eq_some_iff.mp hid
      exact List.mem_map.mpr ⟨x, List.mem_of_mem_filter (List.mem_of_find?_eq_some hx), rfl⟩
    · dsimp only at hx
      split at hx
      · rename_i hadmitted
        obtain hx' | hthis := hno x hx
        · exact Or.inl hx'
        · rw [hfocused, Option.some_inj] at hthis
          rw [← hthis]
          exact Or.inl (isSome_lookup.mp hadmitted)
      · obtain ⟨hx, hne⟩ := List.mem_filter.mp hx
        obtain hx' | hthis := hno x hx
        · exact Or.inl hx'
        · rw [hfocused, Option.some_inj] at hthis
          exact absurd hthis.symm (of_decide_eq_true hne)

/-- The view turns to another run only from one that goes on, or from none. -/
def KeepsInView (r : Runner B R) (runId : ℕ) : Prop :=
  ∀ id, r.focusedId = some id → id = runId ∨ id ∈ r.admitted ∨ (r.liveRun runId).isSome = false

theorem Shows.focusRun (h : r.Shows) (runId : ℕ) :
    (r.focusRun runId).Shows ∧ (r.KeepsInView runId → r.HoldsNoOther → (r.focusRun runId).HoldsNoOther) := by
  unfold Runner.focusRun
  cases hlive : (r.liveRun runId).isSome with
  | false => exact ⟨h, fun _ => id⟩
  | true =>
    refine ⟨⟨h.admitted, fun id hid => ?_⟩, fun hkeeps hno x hx => ?_⟩
    · obtain ⟨x, hx⟩ := Option.isSome_iff_exists.mp hlive
      have hx' : x.id = runId := by simpa using List.find?_some hx
      have hid' : runId = id := Option.some.inj hid
      exact List.mem_map.mpr ⟨x, List.mem_of_find?_eq_some hx, hx'.trans hid'⟩
    · obtain hadmitted | hfocused := hno x hx
      · exact Or.inl hadmitted
      · obtain heq | hadmitted | hdead := hkeeps x.id hfocused
        · rw [heq]
          exact Or.inr rfl
        · exact Or.inl hadmitted
        · rw [hlive] at hdead
          cases hdead

end Runner

namespace World

variable {w : World B R}

/-- A step that moves the view does so from a run that goes on, from none, or to the one it shows. -/
def KeepsInView (w : World B R) : Act B R → Prop
  | .focusRun runId => w.runner.KeepsInView runId
  | _ => True

theorem act_shows (h : w.runner.Shows) (a : Act B R) :
    (act host a w).runner.Shows ∧ (w.KeepsInView a → w.runner.HoldsNoOther → (act host a w).runner.HoldsNoOther) := by
  cases a with
  | create job trigger available =>
    rw [act]
    split <;> exact ⟨h, fun _ => id⟩
  | goOn runId =>
    rw [act]
    split
    · exact ⟨h, fun _ => id⟩
    · exact ⟨(h.place _).1, fun _ => (h.place _).2⟩
  | settle runId => exact ⟨(h.onSettled runId).1, fun _ => (h.onSettled runId).2⟩
  | drainDue =>
    rw [act]
    split
    · exact ⟨h, fun _ => id⟩
    · have hdrains : ({ w.runner with drains := w.runner.drains - 1 } : Runner B R).Shows := ⟨h.admitted, h.focused⟩
      exact ⟨hdrains.drain.1, fun _ => hdrains.drain.2⟩
  | removeQueuedRun runId => exact ⟨⟨h.admitted, h.focused⟩, fun _ => id⟩
  | removeQueuedRunsForJob jobId => exact ⟨⟨h.admitted, h.focused⟩, fun _ => id⟩
  | setOneRunAtATime on =>
    have hset : ∀ settings, ({ w.runner with settings := settings } : Runner B R).Shows := fun _ => ⟨h.admitted, h.focused⟩
    cases on with
    | true => exact ⟨hset _, fun _ => id⟩
    | false =>
      have hoff := hset { w.runner.settings with jobsOneAtATime := false }
      exact ⟨hoff.drain.1, fun _ => hoff.drain.2⟩
  | changeSettings settings => exact ⟨⟨h.admitted, h.focused⟩, fun _ => id⟩
  | setStatus runId status => exact ⟨(h.setStatus runId status).1, fun _ => (h.setStatus runId status).2⟩
  | clearCurrentRun => exact ⟨h.clearCurrentRun.1, fun _ => h.clearCurrentRun.2⟩
  | focusRun runId => exact h.focusRun runId

/-- In every interleaving the runs that go on, and the one in view, are held; and where the view turns away only from
runs that go on, it holds no settled run but the one it shows. -/
theorem view_holds (settings : Settings R) (nextRun : ℕ) (steps : List (Act B R)) :
    (run (act host) (fresh settings nextRun) steps).runner.Shows ∧
      (EveryStep (act host) (fresh settings nextRun) steps KeepsInView →
        (run (act host) (fresh settings nextRun) steps).runner.HoldsNoOther) := by
  have hfresh : (fresh (B := B) settings nextRun).runner.Shows :=
    ⟨fun id hid => absurd hid (AList.notMem_empty id), fun id hid => by cases hid⟩
  have hshows : ∀ (steps : List (Act B R)) (w : World B R), w.runner.Shows → (run (act host) w steps).runner.Shows := by
    intro steps
    induction steps with
    | nil => exact fun _ h => h
    | cons a steps ih => exact fun w h => ih (act host a w) (act_shows h a).1
  refine ⟨hshows steps _ hfresh, fun hsteps => ?_⟩
  have hkeeps := @run_keeps _ _ (act host) _ _ (fun w : World B R => w.runner.Shows ∧ w.runner.HoldsNoOther)
    (fun w a h ha => ⟨(act_shows h.1 a).1, (act_shows h.1 a).2 ha h.2⟩) _ ⟨hfresh, List.forall_mem_nil _⟩ hsteps
  exact hkeeps.2

end World

end Haruspex.JobRuns
