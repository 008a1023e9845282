import Haruspex.CodingLoop.Checklist

/-! The loop of a run (`autonomous-coding/pipeline.ts`, stage 2), one pass at a time. -/
namespace Haruspex.CodingLoop
open JavaScript.Chars
set_option autoImplicit false

/-! ## What the calls of a pass bring -/

structure IterationResult where
  itemId : Text
  done : Bool
  note : Text

structure StepCommit where
  changed : Bool
  unsigned : Bool
  commitSkipped : Bool

/-- What the turns, commands and commits of a pass would return; the pass makes some of the calls. -/
structure Calls where
  /-- The verification command, as it is resolved on this pass. -/
  verifyCmd : Option Text
  passed : Bool
  output : Text
  /-- Writes of a phase turn outside the plan directory, and what git sees there. -/
  wrote : ℕ
  dirty : Option Bool
  /-- Whether the turn's note says that nothing was built (`SELF_REPORTED_FAILURE`). -/
  selfReported : Bool
  result : IterationResult
  commit : StepCommit

def itemMaxAttempts : ℕ := 3

/-- `phaseBuildShortfall`, of which only whether there is one matters to the plan. -/
def phaseBuildShortfall (selfReported : Bool) (wrote : ℕ) (dirty : Option Bool) : Bool :=
  (wrote = 0 ∧ dirty ≠ some true) ∨ selfReported

def checkAssignedItem (result : IterationResult) (targetId : Text) : Bool × Text :=
  if result.itemId = targetId then (result.done, result.note)
  else
    (false, "Reported a result for \"".toList ++ result.itemId ++ "\" instead of the assigned item ".toList ++
      targetId ++ " — counted as a failed attempt. Original note: ".toList ++ result.note)

def applyStepCommit (note : Text) (commit : StepCommit) : Bool × Text :=
  if ¬ commit.changed then
    (false, "Claimed done but changed nothing (no diff, no new commit). Original note: ".toList ++ note)
  else if commit.unsigned then
    (true, note ++ ("\n\nNOTE: commit made UNSIGNED — the signing authorization (e.g. 1Password) was " ++
      "unavailable. Re-sign before pushing (e.g. git rebase --exec 'git commit --amend --no-edit -S').").toList)
  else if commit.commitSkipped then
    (true, note ++ ("\n\nNOTE: commit SKIPPED — the signing authorization was unavailable and this job never " ++
      "commits unsigned. The work remains uncommitted in the working tree.").toList)
  else (true, note)

/-! ## A pass -/

structure LoopState where
  plan : LoopPlan
  /-- The TODO file. -/
  todo : Text
  lastRepairNote : List (Text × Text)

namespace LoopState

/-- `record`, of a plan that may have changed. -/
def record (s : LoopState) (plan : LoopPlan) : LoopState := { s with plan := plan, todo := renderTodoPlan plan }

def repairNote (s : LoopState) (phaseId : Text) : Option Text :=
  (s.lastRepairNote.find? (fun known => known.1 = phaseId)).map Prod.snd

end LoopState

/-- A phase whose items are all settled is verified. -/
def verifyPhase (s : LoopState) (calls : Calls) (phase : PhaseInfo) : LoopState :=
  if calls.passed then s.record (setPhaseVerify s.plan phase.id .passed)
  else if maxPhaseRepairCycles ≤ phase.repairs then s.record (setPhaseVerify s.plan phase.id .blocked)
  else s.record (beginRepairCycle s.plan phase.id calls.output (s.repairNote phase.id))

def runPhaseContextTurn (s : LoopState) (calls : Calls) (phaseId : Text) : LoopState :=
  if phaseBuildShortfall calls.selfReported calls.wrote calls.dirty then
    s.record (recordPhaseBuildFailure s.plan phaseId)
  else s.record (markPhaseItemsDone (recordPhaseBuild s.plan phaseId) phaseId)

/-- The outcome of an item's turn, once its work is committed. -/
def stepOutcome (calls : Calls) (target : TaskItem) : Bool × Text :=
  match checkAssignedItem calls.result target.id with
  | (true, note) => applyStepCommit note calls.commit
  | (false, note) => (false, note)

/-- Whether the last item of an id is blocked by one more failure. -/
def blockedByFailure (items : List TaskItem) (id : Text) (maxAttempts : ℕ) : Bool :=
  (items.filter (fun i => i.id = id)).getLast?.any (fun i => maxAttempts ≤ i.attempts + 1)

/-- The phase of an item, unless it is empty. -/
def phaseOf (item : TaskItem) : Option Text := item.phase.filter (fun id => id ≠ [])

def runIteration (s : LoopState) (calls : Calls) (target : TaskItem) : LoopState :=
  let attemptCap := if target.repair then 1 else itemMaxAttempts
  let (done, note) := stepOutcome calls target
  let (items, note) :=
    if done then (markDone s.plan.items target.id, note)
    else
      (recordFailure s.plan.items target.id attemptCap,
        if blockedByFailure s.plan.items target.id attemptCap then
          "BLOCKED after ".toList ++ decimal attemptCap ++ " failed attempt(s). ".toList ++ note
        else note)
  let notes :=
    match if target.repair then phaseOf target else none with
    | some phaseId => (phaseId, note) :: s.lastRepairNote
    | none => s.lastRepairNote
  { s.record { s.plan with items := items } with lastRepairNote := notes }

/-- One pass, or none when the loop ends. -/
def pass (s : LoopState) (calls : Calls) : Option LoopState :=
  match if calls.verifyCmd.isSome then phaseNeedingVerify s.plan else none with
  | some phase => some (verifyPhase s calls phase)
  | none =>
    match nextActionable s.plan.items with
    | none => none
    | some target =>
      match if target.repair then none else phaseOf target with
      | some phaseId => some (runPhaseContextTurn s calls phaseId)
      | none => some (runIteration s calls target)

/-- Several passes. -/
def passes (s : LoopState) (run : List Calls) : Option LoopState := run.foldlM pass s

/-! ## What a pass does to the plan -/

/-- One constructor for each thing that a pass can do. -/
inductive Passed (plan : LoopPlan) (calls : Calls) : LoopPlan → Prop where
  | verified {phase : PhaseInfo} (hcommand : calls.verifyCmd.isSome) (hpassed : calls.passed)
      (h : phaseNeedingVerify plan = some phase) : Passed plan calls (setPhaseVerify plan phase.id .passed)
  | gaveUp {phase : PhaseInfo} (h : phaseNeedingVerify plan = some phase)
      (hrepairs : maxPhaseRepairCycles ≤ phase.repairs) :
      Passed plan calls (setPhaseVerify plan phase.id .blocked)
  | repairing {phase : PhaseInfo} (h : phaseNeedingVerify plan = some phase)
      (hrepairs : phase.repairs < maxPhaseRepairCycles) (note : Option Text) :
      Passed plan calls (beginRepairCycle plan phase.id calls.output note)
  | fellShort {target : TaskItem} {phaseId : Text} (h : nextActionable plan.items = some target)
      (hphase : target.phase = some phaseId) : Passed plan calls (recordPhaseBuildFailure plan phaseId)
  | built {target : TaskItem} {phaseId : Text} (h : nextActionable plan.items = some target)
      (hphase : target.phase = some phaseId) :
      Passed plan calls (markPhaseItemsDone (recordPhaseBuild plan phaseId) phaseId)
  | finished {target : TaskItem} (h : nextActionable plan.items = some target) :
      Passed plan calls { plan with items := markDone plan.items target.id }
  | failed {target : TaskItem} (h : nextActionable plan.items = some target) (cap : ℕ)
      (hcap : cap ≤ itemMaxAttempts) :
      Passed plan calls { plan with items := recordFailure plan.items target.id cap }

variable {s s' : LoopState} {calls : Calls} {plan plan' : LoopPlan}

/-- A pass that is not the last does one of these things, and the file is written. -/
theorem passed_of_pass (h : pass s calls = some s') :
    Passed s.plan calls s'.plan ∧ s'.todo = renderTodoPlan s'.plan := by
  unfold pass at h
  split at h
  · rename_i phase hneeding
    split at hneeding
    · rename_i hcommand
      cases h
      unfold verifyPhase
      split
      · rename_i hpassed
        exact ⟨.verified hcommand hpassed hneeding, rfl⟩
      · split
        · rename_i hrepairs
          exact ⟨.gaveUp hneeding hrepairs, rfl⟩
        · rename_i hrepairs
          exact ⟨.repairing hneeding (Nat.lt_of_not_le hrepairs) _, rfl⟩
    · cases hneeding
  · split at h
    · cases h
    · rename_i target hnext
      split at h
      · rename_i phaseId hphase
        have htarget : target.phase = some phaseId := by
          split at hphase
          · cases hphase
          · exact (Option.filter_eq_some_iff.mp hphase).1
        cases h
        unfold runPhaseContextTurn
        split
        · exact ⟨.fellShort hnext htarget, rfl⟩
        · exact ⟨.built hnext htarget, rfl⟩
      · cases h
        have hcap : (if target.repair then 1 else itemMaxAttempts) ≤ itemMaxAttempts := by
          split
          · decide
          · exact Nat.le_refl _
        unfold runIteration
        dsimp only
        cases stepOutcome calls target with
        | mk done note =>
          cases done with
          | true => exact ⟨.finished hnext, rfl⟩
          | false => exact ⟨.failed hnext _ hcap, rfl⟩

/-- The loop ends with nothing to do and nothing to verify. -/
theorem settled_of_pass_eq_none (h : pass s calls = none) :
    nextActionable s.plan.items = none ∧ (calls.verifyCmd.isSome → phaseNeedingVerify s.plan = none) := by
  unfold pass at h
  split at h
  · cases h
  · rename_i hneeding
    split at h
    · rename_i hnext
      refine ⟨hnext, fun hcommand => ?_⟩
      rwa [if_pos hcommand] at hneeding
    · split at h <;> cases h

end Haruspex.CodingLoop
