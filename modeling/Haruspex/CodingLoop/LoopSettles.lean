import Haruspex.CodingLoop.LoopKeeps

/-! The loop ends, and every phase is settled. -/
namespace Haruspex.CodingLoop
open JavaScript (Json)
set_option autoImplicit false

variable {lower : Text → Text} {before : Text → Text → Bool} {plan plan' : LoopPlan} {calls : Calls}
  {start s s' : LoopState} {phaseId : Text}

/-! ## Plans with unique ids -/

structure Unique (plan : LoopPlan) : Prop where
  phases : (plan.phases.map PhaseInfo.id).Nodup
  items : (plan.items.map TaskItem.id).Nodup

theorem Unique.passed (hunique : Unique plan) (h : Passed plan calls plan') : Unique plan' := by
  refine ⟨?_, nodup_items_of_passed hunique.items h⟩
  rw [ids_of_headings (headings_of_passed h)]
  exact hunique.phases

theorem Unique.eq_of_phase (hnodup : (plan.phases.map PhaseInfo.id).Nodup) {p q : PhaseInfo}
    (hp : p ∈ plan.phases) (hq : q ∈ plan.phases) (h : p.id = q.id) : p = q :=
  List.inj_on_of_nodup_map hnodup hp hq h

/-- The plans that a run makes, and does not resume. -/
inductive Fresh (lower : Text → Text) (before : Text → Text → Bool) : LoopPlan → Prop where
  | normalized (raw : Json) : Fresh lower before (normalizeTaskListPlan lower raw)
  | guided {plan : LoopPlan} (files : List PlanFile) (planDir : Text)
      (h : parseGuidedPlan before files planDir = some plan) : Fresh lower before plan
  | phased {plan : LoopPlan} (h : Fresh lower before plan) : Fresh lower before (ensurePhased plan)

/-- Ids count up, and nothing is verified. -/
structure New (phases : List PhaseInfo) (items : List TaskItem) : Prop where
  phaseIds : Numbered (phases.map PhaseInfo.id)
  itemIds : Numbered (items.map TaskItem.id)
  pending : ∀ p ∈ phases, p.verify = .pending

theorem New.unique (h : New plan.phases plan.items) : Unique plan := ⟨h.phaseIds.nodup, h.itemIds.nodup⟩

theorem new_addEntry {built : KeyedPhases × List TaskItem} (entry : Json)
    (h : New (built.1.map Prod.snd) built.2) :
    New ((addEntry lower built entry).1.map Prod.snd) (addEntry lower built entry).2 := by
  unfold addEntry
  dsimp only
  split
  · exact h
  · have hitems : ∀ item : TaskItem, item.id = positionId (built.2.length + 1) →
        Numbered ((built.2 ++ [item]).map TaskItem.id) := by
      intro item hid
      have hnext := h.itemIds.concat
      rw [List.length_map] at hnext
      rw [List.map_append, List.map_singleton, hid]
      exact hnext
    unfold phaseFor
    dsimp only
    split
    · exact ⟨h.phaseIds, hitems _ rfl, h.pending⟩
    · refine ⟨?_, hitems _ rfl, fun p hp => ?_⟩
      · have hnext := h.phaseIds.concat
        rw [List.length_map, List.length_map] at hnext
        simp only [List.map_append, List.map_singleton]
        exact hnext
      · rw [List.map_append] at hp
        obtain hp | hp := List.mem_append.mp hp
        · exact h.pending p hp
        · rw [List.mem_singleton.mp hp]

theorem new_addFile {planDir : Text} {file : PlanFile} (h : New plan.phases plan.items)
    (hadd : addFile planDir plan file = some plan') : New plan'.phases plan'.items := by
  obtain ⟨⟨title, rest⟩, -, hadd⟩ := Option.bind_eq_some_iff.mp hadd
  cases hadd
  refine ⟨?_, ?_, fun p hp => ?_⟩
  · have hnext := h.phaseIds.concat
    rw [List.length_map] at hnext
    rw [List.map_append]
    exact hnext
  · have hnext := h.itemIds.append (itemTexts planDir (positionId (plan.phases.length + 1)) title file).length
    rw [List.length_map] at hnext
    have hadded : ((itemTexts planDir (positionId (plan.phases.length + 1)) title file).mapIdx (fun k item =>
        makeItem (plan.items.length + k) (positionId (plan.phases.length + 1)) item.1 item.2)).map TaskItem.id =
        (List.range (itemTexts planDir (positionId (plan.phases.length + 1)) title file).length).map (fun k =>
          positionId (plan.items.length + k + 1)) := by
      refine List.ext_getElem (by simp) fun k hk hk' => ?_
      simp [makeItem]
    rw [← hadded, ← List.map_append] at hnext
    exact hnext
  · obtain hp | hp := List.mem_append.mp hp
    · exact h.pending p hp
    · rw [List.mem_singleton.mp hp]

theorem new_of_fresh (h : Fresh lower before plan) : New plan.phases plan.items := by
  have hnil : New [] [] := ⟨numbered_nil, numbered_nil, fun _ h => nomatch h⟩
  induction h with
  | normalized raw =>
    unfold normalizeTaskListPlan
    split
    · rename_i entries
      have hfold : ∀ built : KeyedPhases × List TaskItem, New (built.1.map Prod.snd) built.2 →
          New ((entries.foldl (addEntry lower) built).1.map Prod.snd)
            (entries.foldl (addEntry lower) built).2 := by
        induction entries with
        | nil => exact fun built h => h
        | cons entry entries ih => exact fun built h => ih _ (new_addEntry entry h)
      exact hfold ([], []) hnil
    · exact hnil
  | guided files planDir h =>
    exact parseGuidedPlan_induction (motive := fun plan => New plan.phases plan.items) hnil
      (fun _ _ _ h hadd => new_addFile h hadd) h
  | phased _ ih =>
    unfold ensurePhased
    split
    · exact ih
    · refine ⟨rfl, ?_, fun p hp => ?_⟩
      · rw [List.map_map]
        exact ih.itemIds
      · rw [List.mem_singleton.mp hp]

/-! ## Verified phases -/

/-- A phase that is verified, and has no open item. -/
def Held (plan : LoopPlan) (p : PhaseInfo) : Prop :=
  p.verify = .passed ∧ ∀ i ∈ members plan p.id, i.status ≠ .todo

theorem forall₂_withPhase {R : PhaseInfo → PhaseInfo → Prop} {change : PhaseInfo → PhaseInfo}
    (hphases : plan'.phases = (plan.withPhase phaseId change).phases)
    (h : ∀ p ∈ plan.phases, R p (if p.id = phaseId then change p else p)) :
    List.Forall₂ R plan.phases plan'.phases := by
  rw [hphases]
  exact List.forall₂_map_right_iff.mpr (List.forall₂_same.mpr h)

theorem forall₂_comp {α : Type} {R S T : α → α → Prop} (hcomp : ∀ a b c, R a b → S b c → T a c)
    {xs ys zs : List α} (hxy : List.Forall₂ R xs ys) (hyz : List.Forall₂ S ys zs) : List.Forall₂ T xs zs := by
  induction hxy generalizing zs with
  | nil =>
    cases hyz
    exact .nil
  | cons hab _ ih =>
    cases hyz with
    | cons hbc hrest => exact .cons (hcomp _ _ _ hab hbc) (ih hrest)

/-- A phase is verified only by a command that succeeds while none of its items is open. -/
theorem newlyPassed (h : Passed plan calls plan') :
    List.Forall₂ (fun p p' => p.verify ≠ .passed → p'.verify = .passed →
      (calls.verifyCmd.isSome ∧ calls.passed ∧ ∀ i ∈ members plan p.id, i.status ≠ .todo) ∧ Held plan' p')
      plan.phases plan'.phases := by
  cases h with
  | verified hcommand hpassed h =>
    obtain ⟨-, -, -, hsettled⟩ := phaseNeedingVerify_spec h
    refine forall₂_withPhase rfl fun p _ hnot hnow => ?_
    split at hnow
    · rename_i hid
      rw [← hid] at hsettled
      rw [if_pos hid]
      exact ⟨⟨hcommand, hpassed, hsettled⟩, rfl, hsettled⟩
    · exact absurd hnow hnot
  | gaveUp h _ =>
    refine forall₂_withPhase rfl fun p _ hnot hnow => ?_
    split at hnow
    · cases hnow
    · exact absurd hnow hnot
  | repairing h _ note =>
    refine forall₂_withPhase rfl fun p _ hnot hnow => ?_
    split at hnow <;> exact absurd hnow hnot
  | fellShort h hphase =>
    refine forall₂_withPhase (phases_recordPhaseBuildFailure plan _) fun p _ hnot hnow => ?_
    split at hnow
    · dsimp only at hnow
      split at hnow
      · cases hnow
      · exact absurd hnow hnot
    · exact absurd hnow hnot
  | built h hphase =>
    refine forall₂_withPhase rfl fun p _ hnot hnow => ?_
    split at hnow <;> exact absurd hnow hnot
  | finished h => exact List.forall₂_same.mpr fun p _ hnot hnow => absurd hnow hnot
  | failed h cap _ => exact List.forall₂_same.mpr fun p _ hnot hnow => absurd hnow hnot

/-- An open item is not of a verified phase without one. -/
theorem other_of_held {p : PhaseInfo} (hheld : Held plan p) {target : TaskItem} (htarget : target ∈ plan.items)
    (htodo : target.status = .todo) (hphase : target.phase = some phaseId) : p.id ≠ phaseId := by
  rintro rfl
  exact hheld.2 target (mem_members.mpr ⟨htarget, hphase⟩) htodo

/-- A verified phase without an open item is not touched. -/
theorem held_of_passed (hunique : Unique plan) (h : Passed plan calls plan') :
    List.Forall₂ (fun p p' => Held plan p → Held plan' p') plan.phases plan'.phases := by
  cases h with
  | verified _ _ h =>
    obtain ⟨hmem, hpending, -, -⟩ := phaseNeedingVerify_spec h
    refine forall₂_withPhase rfl fun p hp hheld => ?_
    split
    · rename_i hid
      exact ⟨rfl, hheld.2⟩
    · exact hheld
  | gaveUp h _ =>
    obtain ⟨hmem, hpending, -, -⟩ := phaseNeedingVerify_spec h
    refine forall₂_withPhase rfl fun p hp hheld => ?_
    have hother : p.id ≠ _ := fun hid => by
      rw [Unique.eq_of_phase hunique.phases hp hmem hid, Held, hpending] at hheld
      exact nomatch hheld.1
    rw [if_neg hother]
    exact hheld
  | repairing h _ note =>
    obtain ⟨hmem, hpending, -, -⟩ := phaseNeedingVerify_spec h
    refine forall₂_withPhase rfl fun p hp hheld => ?_
    have hother : p.id ≠ _ := fun hid => by
      rw [Unique.eq_of_phase hunique.phases hp hmem hid, Held, hpending] at hheld
      exact nomatch hheld.1
    rw [if_neg hother]
    refine ⟨hheld.1, fun i hi => ?_⟩
    obtain ⟨hitem, hphase⟩ := mem_members.mp hi
    obtain rfl | hitem := mem_insertAfterPhase.mp hitem
    · exact absurd (Option.some.inj hphase).symm hother
    · exact hheld.2 i (mem_members.mpr ⟨hitem, hphase⟩)
  | fellShort h hphase =>
    obtain ⟨htarget, htodo⟩ := nextActionable_spec h
    refine forall₂_withPhase (phases_recordPhaseBuildFailure plan _) fun p hp hheld => ?_
    have hother := other_of_held hheld htarget htodo hphase
    rw [if_neg hother]
    refine ⟨hheld.1, fun i hi => ?_⟩
    obtain ⟨hitem, hpid⟩ := mem_members.mp hi
    unfold recordPhaseBuildFailure at hitem
    dsimp only at hitem
    split at hitem
    · obtain ⟨i', hi', rfl⟩ := List.mem_map.mp hitem
      split at hpid
      · rename_i hopen
        exact absurd (Option.some.inj (hpid.symm.trans hopen.1)) hother
      · rename_i hclosed
        rw [if_neg hclosed]
        exact hheld.2 i' (mem_members.mpr ⟨hi', hpid⟩)
    · exact hheld.2 i (mem_members.mpr ⟨hitem, hpid⟩)
  | built h hphase =>
    obtain ⟨htarget, htodo⟩ := nextActionable_spec h
    refine forall₂_withPhase rfl fun p hp hheld => ?_
    rw [if_neg (other_of_held hheld htarget htodo hphase)]
    refine ⟨hheld.1, fun i hi => ?_⟩
    obtain ⟨hitem, hpid⟩ := mem_members.mp hi
    obtain ⟨i', hi', rfl⟩ := List.mem_map.mp hitem
    split
    · exact nofun
    · rename_i hclosed
      rw [if_neg hclosed] at hpid
      exact hheld.2 i' (mem_members.mpr ⟨hi', hpid⟩)
  | finished h =>
    refine List.forall₂_same.mpr fun p hp hheld => ⟨hheld.1, fun i hi => ?_⟩
    obtain ⟨hitem, hpid⟩ := mem_members.mp hi
    obtain ⟨i', hi', rfl⟩ := List.mem_map.mp hitem
    split
    · exact nofun
    · rename_i hnot
      rw [if_neg hnot] at hpid
      exact hheld.2 i' (mem_members.mpr ⟨hi', hpid⟩)
  | failed h cap _ =>
    obtain ⟨htarget, htodo⟩ := nextActionable_spec h
    refine List.forall₂_same.mpr fun p hp hheld => ⟨hheld.1, fun i hi => ?_⟩
    obtain ⟨hitem, hpid⟩ := mem_members.mp hi
    obtain ⟨i', hi', rfl⟩ := List.mem_map.mp hitem
    split
    · -- the item that failed was open, so it is not of this phase
      rename_i hsame
      rw [if_pos hsame] at hpid
      have heq := List.inj_on_of_nodup_map hunique.items hi' htarget hsame
      rw [heq] at hpid
      exact absurd htodo (hheld.2 _ (mem_members.mpr ⟨htarget, hpid⟩))
    · rename_i hnot
      rw [if_neg hnot] at hpid
      exact hheld.2 i' (mem_members.mpr ⟨hi', hpid⟩)

/-- Repair cycles end at the limit. -/
theorem repairs_of_passed (hnodup : (plan.phases.map PhaseInfo.id).Nodup) (h : Passed plan calls plan') :
    List.Forall₂ (fun p p' => p'.repairs ≤ max maxPhaseRepairCycles p.repairs) plan.phases plan'.phases := by
  have hsame : ∀ p : PhaseInfo, p.repairs ≤ max maxPhaseRepairCycles p.repairs := fun p => Nat.le_max_right ..
  cases h with
  | verified _ _ h =>
    refine forall₂_withPhase rfl fun p _ => ?_
    split <;> exact hsame p
  | gaveUp h _ =>
    refine forall₂_withPhase rfl fun p _ => ?_
    split <;> exact hsame p
  | repairing h hrepairs note =>
    obtain ⟨hmem, -, -, -⟩ := phaseNeedingVerify_spec h
    obtain ⟨q, hfind, hq, hqmem⟩ := findPhase_some (List.mem_map_of_mem hmem)
    have heq := Unique.eq_of_phase hnodup hqmem hmem hq
    refine forall₂_withPhase rfl fun p _ => ?_
    split
    · have hnext : nextCycle plan _ = q.repairs + 1 := congrArg (fun o => (o.map PhaseInfo.repairs).getD 0 + 1) hfind
      dsimp only
      rw [hnext, heq]
      exact Nat.le_trans hrepairs (Nat.le_max_left ..)
    · exact hsame p
  | fellShort h hphase =>
    refine forall₂_withPhase (phases_recordPhaseBuildFailure plan _) fun p _ => ?_
    split <;> exact hsame p
  | built h hphase =>
    refine forall₂_withPhase rfl fun p _ => ?_
    split <;> exact hsame p
  | finished h => exact List.forall₂_same.mpr fun p _ => hsame p
  | failed h cap _ => exact List.forall₂_same.mpr fun p _ => hsame p

/-! ## Runs -/

theorem passes_cons (s : LoopState) (calls : Calls) (run : List Calls) :
    passes s (calls :: run) = (pass s calls).bind (fun next => passes next run) := by
  rw [passes, List.foldlM_cons]
  rfl

theorem passes_concat (s : LoopState) (run : List Calls) (calls : Calls) :
    passes s (run ++ [calls]) = (passes s run).bind (fun next => pass next calls) := by
  rw [passes, List.foldlM_append]
  simp [passes]

/-- What holds at the start and is kept by every pass holds after every run. -/
theorem passes_induction {motive : LoopState → Prop} (hstart : motive start)
    (hstep : ∀ s calls s', motive s → pass s calls = some s' → motive s') {run : List Calls}
    (h : passes start run = some s) : motive s := by
  induction run generalizing start with
  | nil =>
    cases h
    exact hstart
  | cons calls run ih =>
    rw [passes_cons] at h
    obtain ⟨next, hpass, hrest⟩ := Option.bind_eq_some_iff.mp h
    exact ih (hstep _ _ _ hstart hpass) hrest

theorem length_add_passesLeft (hheaded : Headed start.plan) {run : List Calls} (h : passes start run = some s) :
    run.length + passesLeft s.plan ≤ passesLeft start.plan := by
  induction run generalizing start with
  | nil =>
    cases h
    simp
  | cons calls run ih =>
    rw [passes_cons] at h
    obtain ⟨next, hpass, hrest⟩ := Option.bind_eq_some_iff.mp h
    have hpassed := (passed_of_pass hpass).1
    have hless := passesLeft_lt hheaded hpassed
    have hih := ih (headed_of_passed hheaded hpassed) hrest
    rw [List.length_cons]
    omega

/-- Whatever the calls bring, the loop ends after a number of passes that the plan bounds. -/
theorem exists_end (hheaded : Headed start.plan) (stream : ℕ → Calls) :
    ∃ k ≤ passesLeft start.plan, ∃ s, passes start ((List.range k).map stream) = some s ∧
      pass s (stream k) = none := by
  by_contra hnever
  push Not at hnever
  have hall : ∀ k ≤ passesLeft start.plan + 1, ∃ s, passes start ((List.range k).map stream) = some s := by
    intro k
    induction k with
    | zero => exact fun _ => ⟨start, rfl⟩
    | succ k ih =>
      intro hk
      obtain ⟨s, hs⟩ := ih (by omega)
      obtain ⟨s', hs'⟩ := Option.ne_none_iff_exists'.mp (hnever k (by omega) s hs)
      refine ⟨s', ?_⟩
      rw [List.range_succ, List.map_append, List.map_singleton, passes_concat, hs]
      exact hs'
  obtain ⟨s, hs⟩ := hall _ (Nat.le_refl _)
  have hlength := length_add_passesLeft hheaded hs
  rw [List.length_map, List.length_range] at hlength
  omega

/-! ## What the loop promises -/

/-- What is left of a plan after any number of passes. -/
structure Kept (start plan : LoopPlan) : Prop where
  /-- No item is removed or renumbered. -/
  items : (start.items.map TaskItem.fixed).Sublist (plan.items.map TaskItem.fixed)
  itemIds : (start.items.map TaskItem.id).Nodup → (plan.items.map TaskItem.id).Nodup
  headings : plan.phases.map PhaseInfo.heading = start.phases.map PhaseInfo.heading
  repairs : (start.phases.map PhaseInfo.id).Nodup →
    List.Forall₂ (fun p p' => p'.repairs ≤ max maxPhaseRepairCycles p.repairs) start.phases plan.phases

/-- How the loop leaves a plan, given the last pass. -/
structure Settled (calls : Calls) (plan : LoopPlan) : Prop where
  items : ∀ i ∈ plan.items, i.status ≠ .todo
  phases : calls.verifyCmd.isSome → ∀ p ∈ plan.phases, members plan p.id ≠ [] → p.verify ≠ .pending

theorem Kept.refl (plan : LoopPlan) : Kept plan plan :=
  ⟨List.Sublist.refl _, fun h => h, rfl, fun _ => List.forall₂_same.mpr fun _ _ => Nat.le_max_right ..⟩

theorem Kept.passed {first : LoopPlan} (hkept : Kept first plan) (h : Passed plan calls plan') :
    Kept first plan' := by
  have hheadings := (headings_of_passed h).trans hkept.headings
  refine ⟨hkept.items.trans (sublist_of_passed h), fun hnodup => nodup_items_of_passed (hkept.itemIds hnodup) h,
    hheadings, fun hnodup => ?_⟩
  have hplan : (plan.phases.map PhaseInfo.id).Nodup := by
    rw [ids_of_headings hkept.headings]
    exact hnodup
  refine forall₂_comp (fun p q r hpq hqr => ?_) (hkept.repairs hnodup) (repairs_of_passed hplan h)
  omega

theorem settled_of_end (h : pass s calls = none) : Settled calls s.plan := by
  obtain ⟨hnext, hneeding⟩ := settled_of_pass_eq_none h
  have hitems : ∀ i ∈ s.plan.items, i.status ≠ .todo := by
    intro i hi htodo
    exact List.find?_eq_none.mp hnext i hi (decide_eq_true htodo)
  refine ⟨hitems, fun hcommand p hp hmembers hpending => ?_⟩
  refine List.find?_eq_none.mp (hneeding hcommand) p hp (decide_eq_true ⟨hpending, hmembers, fun i hi => ?_⟩)
  exact hitems i (mem_members.mp hi).1

theorem held_of_passes (hunique : Unique s.plan) {run : List Calls} (h : passes s run = some s') :
    List.Forall₂ (fun p p' => Held s.plan p → Held s'.plan p') s.plan.phases s'.plan.phases := by
  have hkept : Unique s'.plan ∧
      List.Forall₂ (fun p p' => Held s.plan p → Held s'.plan p') s.plan.phases s'.plan.phases := by
    refine passes_induction (motive := fun t => Unique t.plan ∧
      List.Forall₂ (fun p p' => Held s.plan p → Held t.plan p') s.plan.phases t.plan.phases)
      ⟨hunique, List.forall₂_same.mpr fun _ _ hheld => hheld⟩ (fun t calls t' ht hpass => ?_) h
    have hpassed := (passed_of_pass hpass).1
    exact ⟨ht.1.passed hpassed,
      forall₂_comp (fun _ _ _ hpq hqr hp => hqr (hpq hp)) ht.2 (held_of_passed ht.1 hpassed)⟩
  exact hkept.2

/-- The loop ends, whatever its calls bring, with every item and every phase settled. A phase is verified
by a command that succeeds, and with unique ids it stays so; repair cycles are bounded, and the file follows. -/
theorem codingLoop_settles (hstart : Built lower before start.plan) :
    (∃ n, ∀ stream : ℕ → Calls, ∃ k ≤ n, ∃ s, passes start ((List.range k).map stream) = some s ∧
      pass s (stream k) = none) ∧
    (Fresh lower before start.plan → Unique start.plan ∧ ∀ p ∈ start.plan.phases, p.verify = .pending) ∧
    ∀ run s, passes start run = some s →
      Kept start.plan s.plan ∧
      (Unique start.plan → ∀ run' s', passes s run' = some s' →
        List.Forall₂ (fun p p' => Held s.plan p → Held s'.plan p') s.plan.phases s'.plan.phases) ∧
      (∀ calls, pass s calls = none → Settled calls s.plan) ∧
      ∀ calls s', pass s calls = some s' →
        s'.todo = renderTodoPlan s'.plan ∧
        List.Forall₂ (fun p p' => p.verify ≠ .passed → p'.verify = .passed →
          (calls.verifyCmd.isSome ∧ calls.passed ∧ ∀ i ∈ members s.plan p.id, i.status ≠ .todo) ∧
            Held s'.plan p') s.plan.phases s'.plan.phases := by
  refine ⟨⟨_, exists_end (headed_of_built hstart)⟩, fun hfresh => ?_, fun run s hrun => ⟨?_, ?_, ?_, ?_⟩⟩
  · have hnew := new_of_fresh hfresh
    exact ⟨hnew.unique, hnew.pending⟩
  · exact passes_induction (motive := fun t => Kept start.plan t.plan) (Kept.refl _)
      (fun _ _ _ hkept hpass => hkept.passed (passed_of_pass hpass).1) hrun
  · intro hunique run' s' hrun'
    have hunique' : Unique s.plan := passes_induction (motive := fun t => Unique t.plan) hunique
      (fun _ _ _ ht hpass => ht.passed (passed_of_pass hpass).1) hrun
    exact held_of_passes hunique' hrun'
  · exact fun calls hend => settled_of_end hend
  · intro calls s' hpass
    obtain ⟨hpassed, hfile⟩ := passed_of_pass hpass
    exact ⟨hfile, newlyPassed hpassed⟩

theorem codingLoop_settles_lexer :
    let plan := normalizeTaskListPlan (fun t => t.map Char.toLower)
      (.array [.object [("title", .string "Add lexer"), ("description", .string "Tokens")]])
    Unique plan ∧ ∃ n, ∀ stream : ℕ → Calls, ∃ k ≤ n, ∃ s,
      passes ⟨plan, renderTodoPlan plan, []⟩ ((List.range k).map stream) = some s ∧ pass s (stream k) = none := by
  intro plan
  have hbuilt : Built (fun t => t.map Char.toLower) (fun a b => decide (a ≤ b)) plan := .normalized _
  have hfresh : Fresh (fun t => t.map Char.toLower) (fun a b => decide (a ≤ b)) plan := .normalized _
  obtain ⟨hends, hunique, -⟩ := @codingLoop_settles _ _ ⟨plan, renderTodoPlan plan, []⟩ hbuilt
  exact ⟨(hunique hfresh).1, hends⟩

/-- A resumed phase that is verified and has an open item can be blocked, and a heading that occurs twice
can have more repair cycles than the limit. -/
theorem codingLoop_resumed :
    (let todo := "## Phase 01 — Core (verify: passed, repairs: 0, builds: 1)\n\n- [ ] 01. More\n".toList
      let idle : Calls := ⟨none, false, [], 0, none, false, ⟨[], false, []⟩, ⟨false, false, false⟩⟩
      (parseTodoPlan todo).map (fun plan => plan.phases.map PhaseInfo.verify) = some [.passed] ∧
        ((parseTodoPlan todo).bind (fun plan => passes ⟨ensurePhased plan, todo, []⟩ [idle, idle])).map
          (fun s => s.plan.phases.map PhaseInfo.verify) = some [.blocked]) ∧
      (let todo := ("## Phase 01 — Core (verify: passed, repairs: 7, builds: 1)\n\n- [x] 01. Lexer\n\n" ++
          "## Phase 01 — Rest (verify: pending, repairs: 0, builds: 1)\n").toList
        let failing : Calls :=
          ⟨some ['m', 'a', 'k', 'e'], false, [], 0, none, false, ⟨[], false, []⟩, ⟨false, false, false⟩⟩
        ((parseTodoPlan todo).bind (fun plan => passes ⟨ensurePhased plan, todo, []⟩ [failing])).map
          (fun s => s.plan.phases.map PhaseInfo.repairs) = some [8, 8]) := by
  decide +kernel

end Haruspex.CodingLoop
