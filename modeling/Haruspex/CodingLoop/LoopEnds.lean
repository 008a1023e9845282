import Haruspex.CodingLoop.Loop
import Mathlib.Algebra.Order.BigOperators.Group.List
import Mathlib.Algebra.Order.Ring.Nat

/-! The loop makes finitely many passes. -/
namespace Haruspex.CodingLoop
set_option autoImplicit false

variable {plan plan' : LoopPlan} {calls : Calls} {phaseId id : Text}

/-! ## Phases by their id -/

def repairsOf (plan : LoopPlan) (id : Text) : ℕ := ((findPhase plan id).map PhaseInfo.repairs).getD 0

def buildsOf (plan : LoopPlan) (id : Text) : ℕ := ((findPhase plan id).map PhaseInfo.builds).getD 0

theorem findPhase_withPhase {change : PhaseInfo → PhaseInfo} (hid : ∀ p, (change p).id = p.id) :
    findPhase (plan.withPhase phaseId change) id =
      (findPhase plan id).map (fun p => if p.id = phaseId then change p else p) := by
  have hkeep : ∀ p : PhaseInfo, (if p.id = phaseId then change p else p).id = p.id := by
    intro p
    split
    · exact hid p
    · rfl
  unfold findPhase LoopPlan.withPhase
  rw [List.find?_map]
  congr 2
  funext p
  simp only [Function.comp_apply, hkeep]

theorem findPhase_spec {p : PhaseInfo} (h : findPhase plan id = some p) : p ∈ plan.phases ∧ p.id = id := by
  unfold findPhase at h
  have hid := List.find?_some h
  exact ⟨List.mem_of_find?_eq_some h, of_decide_eq_true hid⟩

theorem findPhase_some (h : id ∈ plan.phases.map PhaseInfo.id) :
    ∃ p, findPhase plan id = some p ∧ p.id = id ∧ p ∈ plan.phases := by
  obtain ⟨q, hq, rfl⟩ := List.mem_map.mp h
  cases hfind : findPhase plan q.id with
  | none =>
    have hnone := List.find?_eq_none.mp hfind q hq
    exact absurd (decide_eq_true rfl) hnone
  | some p => exact ⟨p, rfl, (findPhase_spec hfind).2, (findPhase_spec hfind).1⟩

theorem repairsOf_withPhase {change : PhaseInfo → PhaseInfo} (hid : ∀ p, (change p).id = p.id)
    (hrepairs : ∀ p, (change p).repairs = p.repairs) :
    repairsOf (plan.withPhase phaseId change) id = repairsOf plan id := by
  rw [repairsOf, findPhase_withPhase hid, repairsOf, Option.map_map]
  congr 2
  funext p
  rw [Function.comp_apply]
  split
  · exact hrepairs p
  · rfl

theorem buildsOf_withPhase {change : PhaseInfo → PhaseInfo} (hid : ∀ p, (change p).id = p.id)
    (hbuilds : ∀ p, (change p).builds = p.builds) :
    buildsOf (plan.withPhase phaseId change) id = buildsOf plan id := by
  rw [buildsOf, findPhase_withPhase hid, buildsOf, Option.map_map]
  congr 2
  funext p
  rw [Function.comp_apply]
  split
  · exact hbuilds p
  · rfl

/-! ## What is left to do -/

/-- The attempts left of an item, with one for its being open. -/
def itemLeft (i : TaskItem) : ℕ := 2 * (itemMaxAttempts - i.attempts) + if i.status = .todo then 1 else 0

/-- The repair cycles left of an id: headings of one id that disagree have one more to agree. -/
def cyclesLeft (plan : LoopPlan) (id : Text) : ℕ :=
  if ∀ p ∈ plan.phases, p.id = id → p.repairs = repairsOf plan id then maxPhaseRepairCycles - repairsOf plan id
  else maxPhaseRepairCycles + 1

/-- What is left of a phase: a repair cycle counts for the repair item that it adds, too. -/
def phaseLeft (plan : LoopPlan) (p : PhaseInfo) : ℕ :=
  8 * cyclesLeft plan p.id + (maxPhaseBuildAttempts - buildsOf plan p.id) +
    if p.verify = .pending then 1 else 0

def itemsLeft (items : List TaskItem) : ℕ := (items.map itemLeft).sum

def phasesLeft (plan : LoopPlan) : ℕ := (plan.phases.map (phaseLeft plan)).sum

def passesLeft (plan : LoopPlan) : ℕ := itemsLeft plan.items + phasesLeft plan

theorem cyclesLeft_withPhase {change : PhaseInfo → PhaseInfo} (hid : ∀ p, (change p).id = p.id)
    (hrepairs : ∀ p, (change p).repairs = p.repairs) :
    cyclesLeft (plan.withPhase phaseId change) id = cyclesLeft plan id := by
  have hkeep : ∀ p : PhaseInfo, (if p.id = phaseId then change p else p).id = p.id ∧
      (if p.id = phaseId then change p else p).repairs = p.repairs := by
    intro p
    split
    · exact ⟨hid p, hrepairs p⟩
    · exact ⟨rfl, rfl⟩
  have hagree : (∀ p ∈ (plan.withPhase phaseId change).phases, p.id = id → p.repairs = repairsOf plan id) ↔
      ∀ p ∈ plan.phases, p.id = id → p.repairs = repairsOf plan id := by
    unfold LoopPlan.withPhase
    simp only [List.forall_mem_map, (hkeep _).1, (hkeep _).2]
  unfold cyclesLeft
  rw [repairsOf_withPhase hid hrepairs]
  simp only [hagree]

theorem itemsLeft_map_lt {change : TaskItem → TaskItem} {items : List TaskItem}
    (h : ∀ i ∈ items, itemLeft (change i) ≤ itemLeft i) {target : TaskItem} (htarget : target ∈ items)
    (hlt : itemLeft (change target) < itemLeft target) : itemsLeft (items.map change) < itemsLeft items := by
  unfold itemsLeft
  rw [List.map_map]
  exact List.sum_lt_sum _ _ h ⟨target, htarget, hlt⟩

/-! ## Phases of another id -/

theorem findPhase_withPhase_other {change : PhaseInfo → PhaseInfo} (hid : ∀ p, (change p).id = p.id)
    (hne : id ≠ phaseId) : findPhase (plan.withPhase phaseId change) id = findPhase plan id := by
  rw [findPhase_withPhase hid]
  cases hfind : findPhase plan id with
  | none => rfl
  | some p => rw [Option.map_some, if_neg (by rw [(findPhase_spec hfind).2]; exact hne)]

theorem phaseLeft_withPhase_other {change : PhaseInfo → PhaseInfo} (hid : ∀ p, (change p).id = p.id)
    {p : PhaseInfo} (hne : p.id ≠ phaseId) :
    phaseLeft (plan.withPhase phaseId change) p = phaseLeft plan p := by
  have hagree : (∀ q ∈ (plan.withPhase phaseId change).phases, q.id = p.id → q.repairs = repairsOf plan p.id) ↔
      ∀ q ∈ plan.phases, q.id = p.id → q.repairs = repairsOf plan p.id := by
    unfold LoopPlan.withPhase
    simp only [List.forall_mem_map]
    refine forall₂_congr fun q _ => ?_
    by_cases hq : q.id = phaseId
    · rw [if_pos hq, hid, hq]
      exact ⟨fun _ heq => absurd heq.symm hne, fun _ heq => absurd heq.symm hne⟩
    · rw [if_neg hq]
  have hrepairs : repairsOf (plan.withPhase phaseId change) p.id = repairsOf plan p.id := by
    rw [repairsOf, findPhase_withPhase_other hid hne, repairsOf]
  have hbuilds : buildsOf (plan.withPhase phaseId change) p.id = buildsOf plan p.id := by
    rw [buildsOf, findPhase_withPhase_other hid hne, buildsOf]
  have hcycles : cyclesLeft (plan.withPhase phaseId change) p.id = cyclesLeft plan p.id := by
    unfold cyclesLeft
    rw [hrepairs]
    exact if_congr hagree rfl rfl
  rw [phaseLeft, hcycles, hbuilds, phaseLeft]

/-- A change that leaves `n` less of each phase of the id. -/
theorem phasesLeft_withPhase_add_le (change : PhaseInfo → PhaseInfo) (n : ℕ) (hid : ∀ p, (change p).id = p.id)
    (h : ∀ p ∈ plan.phases, p.id = phaseId →
      phaseLeft (plan.withPhase phaseId change) (change p) ≤ phaseLeft plan p)
    {p : PhaseInfo} (hp : p ∈ plan.phases) (hpid : p.id = phaseId)
    (hless : phaseLeft (plan.withPhase phaseId change) (change p) + n ≤ phaseLeft plan p) :
    phasesLeft (plan.withPhase phaseId change) + n ≤ phasesLeft plan := by
  have hphases : (plan.withPhase phaseId change).phases =
      plan.phases.map (fun p => if p.id = phaseId then change p else p) := rfl
  have hle : ∀ q ∈ plan.phases,
      phaseLeft (plan.withPhase phaseId change) (if q.id = phaseId then change q else q) ≤ phaseLeft plan q := by
    intro q hq
    split
    · exact h q hq ‹_›
    · exact Nat.le_of_eq (phaseLeft_withPhase_other hid ‹_›)
  unfold phasesLeft
  rw [hphases, List.map_map]
  generalize plan.withPhase phaseId change = plan' at hle hless ⊢
  obtain ⟨front, back, hsplit⟩ := List.append_of_mem hp
  have hfront := List.sum_le_sum fun q hq => hle q (hsplit ▸ List.mem_append_left (p :: back) hq)
  have hback := List.sum_le_sum fun q hq => hle q
    (hsplit ▸ List.mem_append_right front (List.mem_cons_of_mem p hq))
  rw [hsplit]
  simp only [List.map_append, List.map_cons, List.sum_append, List.sum_cons, Function.comp_apply, if_pos hpid]
  simp only [Function.comp_def]
  omega

/-! ## Each thing that a pass can do leaves less -/

theorem nextActionable_spec {items : List TaskItem} {target : TaskItem}
    (h : nextActionable items = some target) : target ∈ items ∧ target.status = .todo := by
  unfold nextActionable at h
  have htodo := List.find?_some h
  exact ⟨List.mem_of_find?_eq_some h, of_decide_eq_true htodo⟩

theorem phaseNeedingVerify_spec {phase : PhaseInfo} (h : phaseNeedingVerify plan = some phase) :
    phase ∈ plan.phases ∧ phase.verify = .pending ∧ members plan phase.id ≠ [] ∧
      ∀ i ∈ members plan phase.id, i.status ≠ .todo := by
  unfold phaseNeedingVerify at h
  have hneeding := List.find?_some h
  exact ⟨List.mem_of_find?_eq_some h, of_decide_eq_true hneeding⟩

theorem passesLeft_setPhaseVerify {phase : PhaseInfo} {verify : PhaseVerifyStatus} (hphase : phase ∈ plan.phases)
    (hpending : phase.verify = .pending) (hverify : verify ≠ .pending) :
    passesLeft (setPhaseVerify plan phase.id verify) < passesLeft plan := by
  have hleft : ∀ p : PhaseInfo, phaseLeft (setPhaseVerify plan phase.id verify) { p with verify := verify } =
      8 * cyclesLeft plan p.id + (maxPhaseBuildAttempts - buildsOf plan p.id) := by
    intro p
    have hcycles : cyclesLeft (setPhaseVerify plan phase.id verify) p.id = cyclesLeft plan p.id :=
      cyclesLeft_withPhase (fun _ => rfl) (fun _ => rfl)
    have hbuilds : buildsOf (setPhaseVerify plan phase.id verify) p.id = buildsOf plan p.id :=
      buildsOf_withPhase (fun _ => rfl) (fun _ => rfl)
    unfold phaseLeft
    dsimp only
    rw [hcycles, hbuilds, if_neg hverify, Nat.add_zero]
  have hphases : phasesLeft (setPhaseVerify plan phase.id verify) + 1 ≤ phasesLeft plan := by
    refine phasesLeft_withPhase_add_le (fun p => { p with verify := verify }) 1 (fun _ => rfl) (fun p _ _ => ?_) hphase rfl ?_
    · refine Nat.le_trans (Nat.le_of_eq (hleft p)) ?_
      exact Nat.le_add_right _ _
    · refine Nat.le_trans (Nat.le_of_eq (congrArg (· + 1) (hleft phase))) ?_
      rw [phaseLeft, if_pos hpending]
  have hitems : (setPhaseVerify plan phase.id verify).items = plan.items := rfl
  rw [passesLeft, passesLeft, hitems]
  omega

theorem itemLeft_done (i : TaskItem) : itemLeft { i with status := .done } ≤ itemLeft i := by
  simp [itemLeft]

theorem itemLeft_done_lt {i : TaskItem} (h : i.status = .todo) :
    itemLeft { i with status := .done } < itemLeft i := by
  simp [itemLeft, h]

theorem itemLeft_fail {cap : ℕ} (hcap : cap ≤ itemMaxAttempts) (i : TaskItem) :
    itemLeft (i.fail cap) ≤ itemLeft i := by
  unfold itemLeft TaskItem.fail
  unfold itemMaxAttempts at *
  dsimp only
  by_cases hlast : cap ≤ i.attempts + 1
  · rw [if_pos hlast, if_neg (by decide)]
    omega
  · rw [if_neg hlast, if_pos rfl]
    omega

theorem itemLeft_fail_lt {cap : ℕ} (hcap : cap ≤ itemMaxAttempts) {i : TaskItem} (h : i.status = .todo) :
    itemLeft (i.fail cap) < itemLeft i := by
  unfold itemLeft TaskItem.fail
  unfold itemMaxAttempts at *
  dsimp only
  rw [if_pos h]
  by_cases hlast : cap ≤ i.attempts + 1
  · rw [if_pos hlast, if_neg (by decide)]
    omega
  · rw [if_neg hlast, if_pos rfl]
    omega

theorem passesLeft_markDone {target : TaskItem} (h : nextActionable plan.items = some target) :
    passesLeft { plan with items := markDone plan.items target.id } < passesLeft plan := by
  obtain ⟨hmem, htodo⟩ := nextActionable_spec h
  refine Nat.add_lt_add_right (itemsLeft_map_lt (fun i _ => ?_) hmem ?_) _
  · split
    · exact itemLeft_done i
    · exact Nat.le_refl _
  · rw [if_pos rfl]
    exact itemLeft_done_lt htodo

theorem passesLeft_recordFailure {target : TaskItem} (h : nextActionable plan.items = some target) {cap : ℕ}
    (hcap : cap ≤ itemMaxAttempts) :
    passesLeft { plan with items := recordFailure plan.items target.id cap } < passesLeft plan := by
  obtain ⟨hmem, htodo⟩ := nextActionable_spec h
  refine Nat.add_lt_add_right (itemsLeft_map_lt (fun i _ => ?_) hmem ?_) _
  · split
    · exact itemLeft_fail hcap i
    · exact Nat.le_refl _
  · rw [if_pos rfl]
    exact itemLeft_fail_lt hcap htodo

theorem mem_members {i : TaskItem} : i ∈ members plan phaseId ↔ i ∈ plan.items ∧ i.phase = some phaseId := by
  rw [members, List.mem_filter, decide_eq_true_eq]

theorem buildsOf_withPhase_self (change : PhaseInfo → PhaseInfo) (hid : ∀ p, (change p).id = p.id)
    (h : phaseId ∈ plan.phases.map PhaseInfo.id) :
    ∃ p ∈ plan.phases, buildsOf plan phaseId = p.builds ∧
      buildsOf (plan.withPhase phaseId change) phaseId = (change p).builds := by
  obtain ⟨p, hfind, hp, hmem⟩ := findPhase_some h
  refine ⟨p, hmem, ?_, ?_⟩
  · rw [buildsOf, hfind]
    rfl
  · rw [buildsOf, findPhase_withPhase hid, hfind, Option.map_some, if_pos hp]
    rfl

theorem repairsOf_withPhase_self (change : PhaseInfo → PhaseInfo) (hid : ∀ p, (change p).id = p.id)
    (h : phaseId ∈ plan.phases.map PhaseInfo.id) :
    ∃ p ∈ plan.phases, repairsOf plan phaseId = p.repairs ∧
      repairsOf (plan.withPhase phaseId change) phaseId = (change p).repairs := by
  obtain ⟨p, hfind, hp, hmem⟩ := findPhase_some h
  refine ⟨p, hmem, ?_, ?_⟩
  · rw [repairsOf, hfind]
    rfl
  · rw [repairsOf, findPhase_withPhase hid, hfind, Option.map_some, if_pos hp]
    rfl

/-- A change of builds that makes none fewer leaves no more of the phases. -/
theorem phasesLeft_builds_le (change : PhaseInfo → PhaseInfo) (hid : ∀ p, (change p).id = p.id)
    (hrepairs : ∀ p, (change p).repairs = p.repairs)
    (hverify : ∀ p, (change p).verify = .pending → p.verify = .pending) (n : ℕ)
    (h : phaseId ∈ plan.phases.map PhaseInfo.id)
    (hbuilds : (maxPhaseBuildAttempts - buildsOf (plan.withPhase phaseId change) phaseId) + n ≤
      maxPhaseBuildAttempts - buildsOf plan phaseId) :
    phasesLeft (plan.withPhase phaseId change) + n ≤ phasesLeft plan := by
  obtain ⟨p, -, hp, hmem⟩ := findPhase_some h
  have hless : ∀ q ∈ plan.phases, q.id = phaseId →
      phaseLeft (plan.withPhase phaseId change) (change q) + n ≤ phaseLeft plan q := by
    intro q _ hq
    have hcycles : cyclesLeft (plan.withPhase phaseId change) q.id = cyclesLeft plan q.id :=
      cyclesLeft_withPhase hid hrepairs
    have hopen : (if (change q).verify = .pending then 1 else 0) ≤ if q.verify = .pending then 1 else 0 := by
      by_cases hpending : (change q).verify = .pending
      · rw [if_pos hpending, if_pos (hverify q hpending)]
      · rw [if_neg hpending]
        exact Nat.zero_le _
    rw [phaseLeft, phaseLeft, hid, hcycles, hq]
    omega
  exact phasesLeft_withPhase_add_le change n hid (fun q hq hid' => Nat.le_trans (Nat.le_add_right _ n) (hless q hq hid'))
    hmem hp (hless p hmem hp)

theorem passesLeft_built {target : TaskItem} (h : nextActionable plan.items = some target)
    (hphase : target.phase = some phaseId) (hheaded : phaseId ∈ plan.phases.map PhaseInfo.id) :
    passesLeft (markPhaseItemsDone (recordPhaseBuild plan phaseId) phaseId) < passesLeft plan := by
  obtain ⟨hmem, htodo⟩ := nextActionable_spec h
  have hphases : phasesLeft (recordPhaseBuild plan phaseId) + 0 ≤ phasesLeft plan := by
    refine phasesLeft_builds_le (fun p => { p with builds := p.builds + 1 }) (fun _ => rfl) (fun _ => rfl)
      (fun _ hp => hp) 0 hheaded ?_
    obtain ⟨p, -, hbefore, hafter⟩ := @buildsOf_withPhase_self plan _
      (fun p => { p with builds := p.builds + 1 }) (fun _ => rfl) hheaded
    rw [hbefore, hafter]
    dsimp only
    omega
  refine Nat.add_lt_add_of_lt_of_le (itemsLeft_map_lt (fun i _ => ?_) hmem ?_) hphases
  · split
    · exact itemLeft_done i
    · exact Nat.le_refl _
  · rw [if_pos ⟨hphase, htodo⟩]
    exact itemLeft_done_lt htodo

theorem passesLeft_fellShort {target : TaskItem} (h : nextActionable plan.items = some target)
    (hphase : target.phase = some phaseId) (hheaded : phaseId ∈ plan.phases.map PhaseInfo.id) :
    passesLeft (recordPhaseBuildFailure plan phaseId) < passesLeft plan := by
  obtain ⟨hmem, htodo⟩ := nextActionable_spec h
  have hnext : nextBuild plan phaseId = buildsOf plan phaseId + 1 := rfl
  unfold recordPhaseBuildFailure
  dsimp only
  by_cases hexhausted : buildsExhausted plan phaseId
  · -- the open items of the phase are blocked
    simp only [if_pos hexhausted]
    have hphases : phasesLeft (plan.withPhase phaseId (fun p =>
        { p with builds := nextBuild plan phaseId, verify := .blocked })) + 0 ≤ phasesLeft plan := by
      refine phasesLeft_builds_le (fun p => { p with builds := nextBuild plan phaseId, verify := .blocked })
        (fun _ => rfl) (fun _ => rfl) (fun _ hp => nomatch hp) 0 hheaded ?_
      obtain ⟨p, -, hbefore, hafter⟩ := @buildsOf_withPhase_self plan _
        (fun p => { p with builds := nextBuild plan phaseId, verify := .blocked }) (fun _ => rfl) hheaded
      rw [hafter]
      dsimp only
      omega
    refine Nat.add_lt_add_of_lt_of_le (itemsLeft_map_lt (fun i _ => ?_) hmem ?_) hphases
    · split
      · simp [itemLeft, maxPhaseBuildAttempts, itemMaxAttempts]
      · exact Nat.le_refl _
    · rw [if_pos ⟨hphase, htodo⟩]
      simp [itemLeft, htodo, maxPhaseBuildAttempts, itemMaxAttempts]
  · -- one build less is left
    simp only [if_neg hexhausted]
    refine Nat.add_lt_add_of_le_of_lt (Nat.le_refl _) ?_
    refine phasesLeft_builds_le (fun p => { p with builds := nextBuild plan phaseId }) (fun _ => rfl)
      (fun _ => rfl) (fun _ hp => hp) 1 hheaded ?_
    obtain ⟨p, -, hbefore, hafter⟩ := @buildsOf_withPhase_self plan _
      (fun p => { p with builds := nextBuild plan phaseId }) (fun _ => rfl) hheaded
    simp only [buildsExhausted, decide_eq_true_eq] at hexhausted
    rw [hafter]
    dsimp only
    omega

theorem itemsLeft_insertAfterPhase (item : TaskItem) (items : List TaskItem) :
    itemsLeft (insertAfterPhase phaseId item items) = itemsLeft items + itemLeft item := by
  obtain ⟨front, back, hitems, hinsert⟩ := insertAfterPhase_eq phaseId item items
  rw [hinsert, hitems]
  simp only [itemsLeft, List.map_append, List.map_cons, List.sum_append, List.sum_cons]
  omega

/-- After a repair cycle begins, the headings of the id agree. -/
theorem cyclesLeft_repairing (h : phaseId ∈ plan.phases.map PhaseInfo.id) {phase : PhaseInfo}
    (hphase : phase ∈ plan.phases) (hid : phase.id = phaseId) (hrepairs : phase.repairs < maxPhaseRepairCycles) :
    cyclesLeft (plan.withPhase phaseId (fun p => { p with repairs := nextCycle plan phaseId })) phaseId + 1 ≤
      cyclesLeft plan phaseId := by
  have hnext : nextCycle plan phaseId = repairsOf plan phaseId + 1 := rfl
  obtain ⟨p, -, hbefore, hafter⟩ := @repairsOf_withPhase_self plan _
    (fun p => { p with repairs := nextCycle plan phaseId }) (fun _ => rfl) h
  have hagree : ∀ q ∈ (plan.withPhase phaseId (fun p => { p with repairs := nextCycle plan phaseId })).phases,
      q.id = phaseId → q.repairs = nextCycle plan phaseId := by
    unfold LoopPlan.withPhase
    simp only [List.forall_mem_map]
    intro q _ hq
    by_cases hsame : q.id = phaseId
    · rw [if_pos hsame]
    · rw [if_neg hsame] at hq
      exact absurd hq hsame
  unfold cyclesLeft
  rw [hafter, if_pos hagree]
  split
  · rename_i hsame
    have hcount := hsame phase hphase hid
    dsimp only
    omega
  · dsimp only
    omega

theorem passesLeft_repairing {phase : PhaseInfo} (hphase : phase ∈ plan.phases)
    (hrepairs : phase.repairs < maxPhaseRepairCycles) (output : Text) (note : Option Text) :
    passesLeft (beginRepairCycle plan phase.id output note) < passesLeft plan := by
  have hheaded : phase.id ∈ plan.phases.map PhaseInfo.id := List.mem_map_of_mem hphase
  have hcycles := cyclesLeft_repairing hheaded hphase rfl hrepairs
  have hitem : itemLeft (repairItem plan phase.id output note) = 7 := rfl
  have hless : ∀ p ∈ plan.phases, p.id = phase.id →
      phaseLeft (plan.withPhase phase.id (fun p => { p with repairs := nextCycle plan phase.id }))
        { p with repairs := nextCycle plan phase.id } + 8 ≤ phaseLeft plan p := by
    intro p _ hp
    have hbuilds : buildsOf (plan.withPhase phase.id (fun p => { p with repairs := nextCycle plan phase.id }))
        phase.id = buildsOf plan phase.id := buildsOf_withPhase (fun _ => rfl) (fun _ => rfl)
    unfold phaseLeft
    dsimp only
    rw [hp, hbuilds]
    omega
  have hphases := phasesLeft_withPhase_add_le
    (fun p => { p with repairs := nextCycle plan phase.id }) 8 (fun _ => rfl)
    (fun p hp hid => Nat.le_trans (Nat.le_add_right _ 8) (hless p hp hid)) hphase rfl (hless phase hphase rfl)
  have hitems := @itemsLeft_insertAfterPhase phase.id (repairItem plan phase.id output note) plan.items
  change itemsLeft (insertAfterPhase phase.id (repairItem plan phase.id output note) plan.items) +
    phasesLeft (plan.withPhase phase.id (fun p => { p with repairs := nextCycle plan phase.id })) < passesLeft plan
  rw [passesLeft]
  omega

/-! ## The loop ends -/

/-- Every item that is in a phase is in one that has a heading. -/
def Headed (plan : LoopPlan) : Prop :=
  ∀ i ∈ plan.items, ∀ phaseId ∈ i.phase, phaseId ∈ plan.phases.map PhaseInfo.id

theorem passesLeft_lt (hheaded : Headed plan) (h : Passed plan calls plan') :
    passesLeft plan' < passesLeft plan := by
  cases h with
  | verified _ _ h =>
    obtain ⟨hmem, hpending, -, -⟩ := phaseNeedingVerify_spec h
    exact passesLeft_setPhaseVerify hmem hpending (by decide)
  | gaveUp h _ =>
    obtain ⟨hmem, hpending, -, -⟩ := phaseNeedingVerify_spec h
    exact passesLeft_setPhaseVerify hmem hpending (by decide)
  | repairing h hrepairs note =>
    obtain ⟨hmem, -, -, -⟩ := phaseNeedingVerify_spec h
    exact passesLeft_repairing hmem hrepairs _ note
  | fellShort h hphase =>
    exact passesLeft_fellShort h hphase (hheaded _ (nextActionable_spec h).1 _ hphase)
  | built h hphase =>
    exact passesLeft_built h hphase (hheaded _ (nextActionable_spec h).1 _ hphase)
  | finished h => exact passesLeft_markDone h
  | failed h cap hcap => exact passesLeft_recordFailure h hcap

end Haruspex.CodingLoop
