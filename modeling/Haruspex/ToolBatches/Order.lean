import Haruspex.ToolBatches.Batch

/-! The calls of one response, batch after batch: which of them overlap, in what order their results
are handed over, what a failure stops, and when the loop can be stuck. -/
namespace Haruspex.ToolBatches
set_option autoImplicit false

variable {T : Type} {calls : List ResolvedToolCall} {limit : ℕ}
  {throws : ResolvedToolCall → T → Bool} {outcome : ℕ → Outcome T} {b b' : Batch T}

/-! ## Values -/

/-- The values recorded are those of the calls. -/
def Truthful (outcome : ℕ → Outcome T) (b : Batch T) : Prop :=
  ∀ (i : ℕ) result, b.results[i]? = some (some result) → outcome i = .value result

theorem startLoop_results (fuel : ℕ) (b : Batch T) :
    (startLoop calls limit fuel b).results = b.results := by
  induction fuel generalizing b with
  | zero => rfl
  | succ fuel ih =>
    rw [startLoop]
    split
    · split
      · rfl
      · exact ih _
    · rfl

theorem startLoop_failed (fuel : ℕ) (b : Batch T) :
    (startLoop calls limit fuel b).failed = b.failed := by
  induction fuel generalizing b with
  | zero => rfl
  | succ fuel ih =>
    rw [startLoop]
    split
    · split
      · rfl
      · exact ih _
    · rfl

theorem deliver_results (calls : List ResolvedToolCall) (throws : ResolvedToolCall → T → Bool)
    (b : Batch T) : (deliver calls throws b).results = b.results := by
  have hloop : (deliverLoop calls throws calls.length b).results = b.results :=
    (deliverLoop_same throws calls.length b).results
  unfold deliver
  dsimp only
  split
  · exact hloop
  · split
    · exact hloop
    · exact hloop

/-- A delivery round leaves the calls where they are. -/
theorem deliver_places (calls : List ResolvedToolCall) (throws : ResolvedToolCall → T → Bool)
    (b : Batch T) : (deliver calls throws b).waiting = b.waiting ∧
      (deliver calls throws b).inFlight = b.inFlight := by
  have hloop : Delivered b (deliverLoop calls throws calls.length b) :=
    deliverLoop_same throws calls.length b
  unfold deliver
  dsimp only
  split
  · exact ⟨hloop.waiting, hloop.inFlight⟩
  · split
    · exact ⟨hloop.waiting, hloop.inFlight⟩
    · exact ⟨hloop.waiting, hloop.inFlight⟩

theorem Truthful.settle {i : ℕ} (h : Truthful outcome b) :
    Truthful outcome (settle calls limit throws b i (outcome i)) := by
  cases hi : outcome i with
  | failure => exact h
  | value value =>
    unfold ToolBatches.settle
    dsimp only
    split
    · exact h
    · intro j result hj
      rw [startMore, startLoop_results, deliver_results] at hj
      have hj' : (b.results.set i (some value))[j]? = some (some result) := hj
      by_cases hij : i = j
      · subst hij
        rw [List.getElem?_set_self' ] at hj'
        cases hb : b.results[i]? with
        | none =>
          rw [hb] at hj'
          cases hj'
        | some old =>
          rw [hb] at hj'
          cases hj'
          exact hi
      · rw [List.getElem?_set_ne hij] at hj'
        exact h j result hj'

theorem Truthful.step (h : Truthful outcome b) (hstep : Step calls limit throws outcome b b') :
    Truthful outcome b' := by
  cases hstep with
  | tick i hi => exact h
  | settle i hi => exact h.settle

theorem runToolBatch_truthful (calls : List ResolvedToolCall) (limit : ℕ) :
    Truthful outcome (runToolBatch calls limit) := by
  have hresults : (runToolBatch calls limit : Batch T).results = List.replicate calls.length none := by
    unfold runToolBatch
    split
    · rfl
    · exact startLoop_results _ _
  intro i result hi
  rw [hresults] at hi
  cases List.eq_of_mem_replicate (List.mem_of_getElem? hi)

/-! ## Stuck, or not -/

/-- While nothing has failed, a batch with a result still to come has a call in flight. -/
theorem Good.inFlight_ne_nil (h : Good calls limit b) (hlimit : 1 ≤ limit)
    (hnames : ∀ call ∈ calls, call.name ∉ inheritedNames) (hno : b.failed = false)
    (hleft : b.delivered.length < calls.length) : b.inFlight ≠ [] := by
  intro hnil
  have hg := h.going hno
  have hrunning : b.running = 0 := by rw [hg.exact.running, hnil]; rfl
  have hwaiting : b.waiting = [] := by
    rw [List.eq_nil_iff_forall_not_mem]
    intro i hi
    have hlt : i < calls.length := by
      have hnone := h.sound.unfinished i (List.mem_append_left _ hi)
      rw [← h.sound.length]
      exact (List.getElem?_eq_some_iff.mp hnone).1
    have hname : nameAt calls i ∉ inheritedNames := by
      rw [nameAt, List.getElem?_eq_getElem hlt]
      exact hnames _ (List.getElem_mem hlt)
    have hcan : b.canStart calls limit i = true := by
      rw [Batch.canStart, underCap_iff, hg.exact.tool, hnil]
      exact capOf_pos hlimit hname
    rw [hg.busy (by omega) i hi] at hcan
    cases hcan
  rcases hg.exact.all b.delivered.length hleft with hplace | ⟨result, hresult⟩
  · rw [hwaiting, hnil] at hplace
    cases hplace
  · refine hg.prompt result ?_
    rw [hg.exact.next]
    exact hresult

/-- A result is handed over as soon as its call and all earlier ones have finished. -/
theorem Going.handed_over (h : Going calls limit b) {p : ℕ}
    (hfinished : ∀ q ≤ p, ∃ result, b.results[q]? = some (some result)) : p < b.delivered.length := by
  by_contra hlate
  obtain ⟨result, hresult⟩ := hfinished b.delivered.length (by omega)
  refine h.prompt result ?_
  rw [h.exact.next]
  exact hresult

/-! ## After a failure -/

theorem tick_inFlight {i : ℕ} (hi : i ∈ b.deferred) : ∀ j ∈ (b.tick i).inFlight, j ∈ b.inFlight := by
  intro j hj
  rcases List.mem_append.mp hj with hj | hj
  · exact List.mem_append_left _ (List.mem_of_mem_erase hj)
  · rcases List.mem_append.mp hj with hj | hj
    · exact List.mem_append_right _ hj
    · rw [List.mem_singleton.mp hj]
      exact List.mem_append_left _ hi

/-- A step that ends in a failure starts nothing. -/
theorem Step.starts_nothing (hstep : Step calls limit throws outcome b b') (hfailed : b'.failed = true) :
    b'.waiting = b.waiting ∧ ∀ i ∈ b'.inFlight, i ∈ b.inFlight := by
  cases hstep with
  | tick i hi => exact ⟨rfl, tick_inFlight hi⟩
  | settle i hi =>
    have hland : ∀ j ∈ (b.landed i).inFlight, j ∈ b.inFlight :=
      fun j hj => (landed_inFlight hi).mem_iff.mpr (List.mem_cons_of_mem i hj)
    cases hout : outcome i with
    | failure => exact ⟨rfl, hland⟩
    | value result =>
      rw [hout] at hfailed
      unfold ToolBatches.settle at hfailed ⊢
      dsimp only at hfailed ⊢
      split at hfailed
      · rename_i hbefore
        rw [if_pos hbefore]
        exact ⟨rfl, hland⟩
      · rename_i hbefore
        rw [if_neg hbefore]
        rw [startMore, startLoop_failed] at hfailed
        rw [startMore_failed hfailed]
        obtain ⟨hwaiting, hflight⟩ := deliver_places calls throws ((b.landed i).record calls i result)
        refine ⟨hwaiting, ?_⟩
        intro j hj
        have hj' : j ∈ ((b.landed i).record calls i result).inFlight := by
          rw [← hflight]
          exact hj
        exact hland j hj'

/-- Nothing is handed over by a step after a failure. -/
theorem Step.stopped (hstep : Step calls limit throws outcome b b') (hfailed : b.failed = true) :
    b'.failed = true ∧ b'.delivered = b.delivered := by
  cases hstep with
  | tick i hi => exact ⟨hfailed, rfl⟩
  | settle i hi =>
    cases outcome i with
    | failure => exact ⟨rfl, rfl⟩
    | value result =>
      unfold ToolBatches.settle
      dsimp only
      rw [if_pos hfailed]
      exact ⟨hfailed, rfl⟩

theorem runToolBatch_failed (calls : List ResolvedToolCall) (limit : ℕ) :
    (runToolBatch calls limit : Batch T).failed = false := by
  unfold runToolBatch
  split
  · rfl
  · exact startLoop_failed _ _

end Haruspex.ToolBatches
