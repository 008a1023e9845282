import Haruspex.CodingLoop.RoundTrip
import Haruspex.CodingLoop.Transitions
import Mathlib.Logic.Relation
import Mathlib.Data.Char
import Mathlib.Data.List.Lex

/-! The checklist of a run, and what is left of it in its file. -/
namespace Haruspex.CodingLoop
open JavaScript (Json)
set_option autoImplicit false

/-- The plans that a run can start from. -/
inductive Built (lower : Text → Text) (before : Text → Text → Bool) : LoopPlan → Prop where
  | normalized (raw : Json) : Built lower before (normalizeTaskListPlan lower raw)
  | guided {plan : LoopPlan} (files : List PlanFile) (planDir : Text)
      (h : parseGuidedPlan before files planDir = some plan) : Built lower before plan
  | resumed {plan : LoopPlan} (text : Text) (h : parseTodoPlan text = some plan) : Built lower before plan
  | phased {plan : LoopPlan} (h : Built lower before plan) : Built lower before (ensurePhased plan)

/-- What the loop does to its plan. -/
inductive Transition : LoopPlan → LoopPlan → Prop where
  | markDone (plan : LoopPlan) (id : Text) : Transition plan { plan with items := markDone plan.items id }
  | markPhaseItemsDone (plan : LoopPlan) (phaseId : Text) : Transition plan (markPhaseItemsDone plan phaseId)
  | recordFailure (plan : LoopPlan) (id : Text) (maxAttempts : ℕ) :
      Transition plan { plan with items := recordFailure plan.items id maxAttempts }
  | recordPhaseBuild (plan : LoopPlan) (phaseId : Text) : Transition plan (recordPhaseBuild plan phaseId)
  | recordPhaseBuildFailure (plan : LoopPlan) (phaseId : Text) :
      Transition plan (recordPhaseBuildFailure plan phaseId)
  | setPhaseVerify (plan : LoopPlan) (phaseId : Text) (verify : PhaseVerifyStatus) :
      Transition plan (setPhaseVerify plan phaseId verify)
  | beginRepairCycle (plan : LoopPlan) {phase : PhaseInfo} (hphase : phase ∈ plan.phases)
      (failureOutput : Text) (previousRepairNote : Option Text) :
      Transition plan (beginRepairCycle plan phase.id failureOutput previousRepairNote)

variable {lower : Text → Text} {before : Text → Text → Bool} {start plan plan' : LoopPlan}

theorem wellformed_of_built (h : Built lower before plan) : plan.Wellformed := by
  induction h with
  | normalized raw => exact wellformed_normalizeTaskListPlan lower raw
  | guided files planDir h => exact wellformed_parseGuidedPlan h
  | resumed text h => exact wellformed_parseTodoPlan h
  | phased _ ih => exact wellformed_ensurePhased ih

theorem wellformed_of_transition (h : plan.Wellformed) (hstep : Transition plan plan') : plan'.Wellformed := by
  cases hstep with
  | markDone id => exact wellformed_markDone h id
  | markPhaseItemsDone phaseId => exact wellformed_markPhaseItemsDone h phaseId
  | recordFailure id maxAttempts => exact wellformed_recordFailure h id maxAttempts
  | recordPhaseBuild phaseId => exact wellformed_recordPhaseBuild h phaseId
  | recordPhaseBuildFailure phaseId => exact wellformed_recordPhaseBuildFailure h phaseId
  | setPhaseVerify phaseId verify => exact wellformed_setPhaseVerify h phaseId verify
  | beginRepairCycle hphase failureOutput note =>
    exact wellformed_beginRepairCycle h (h.phases _ hphase).id failureOutput note

theorem wellformed_of_run (hstart : Built lower before start)
    (hrun : Relation.ReflTransGen Transition start plan) : plan.Wellformed := by
  induction hrun with
  | refl => exact wellformed_of_built hstart
  | tail _ hstep ih => exact wellformed_of_transition ih hstep

/-- After any transitions, the file is read back as the plan exactly if it can hold all of the plan. -/
theorem checklist_roundTrips_iff (hstart : Built lower before start)
    (hrun : Relation.ReflTransGen Transition start plan) : RoundTrips plan ↔ Plain plan :=
  roundTrips_iff (wellformed_of_run hstart hrun)

theorem checklist_roundTrips_done :
    let plan := normalizeTaskListPlan (fun t => t.map Char.toLower)
      (.array [.object [("title", .string "Add lexer"), ("description", .string "Tokens\n\nand errors")]])
    RoundTrips { plan with items := markDone plan.items ['0', '1'] } := by
  intro plan
  have hplain : Plain { plan with items := markDone plan.items ['0', '1'] } := by
    constructor <;> decide +kernel
  have hbuilt : Built (fun t => t.map Char.toLower) (fun a b => decide (a ≤ b)) plan := .normalized _
  exact (checklist_roundTrips_iff hbuilt (.single (.markDone plan ['0', '1']))).mpr hplain

/-- A description with an indented line loses it, while its item keeps the others. -/
theorem checklist_losesIndented :
    let plan := normalizeTaskListPlan (fun t => t.map Char.toLower)
      (.array [.object [("title", .string "Add lexer"), ("description", .string "Tokens:\n  - words\nerrors")]])
    Built (fun t => t.map Char.toLower) (fun a b => decide (a ≤ b)) plan ∧
      (parseTodoPlan (renderTodoPlan plan)).map (fun read => read.items.map TaskItem.description) =
        some ["Tokens:\nerrors".toList] ∧
      ¬ RoundTrips plan := by
  refine ⟨.normalized _, by decide +kernel, ?_⟩
  rw [roundTrips_iff (wellformed_normalizeTaskListPlan _ _)]
  intro hplain
  have hflat := hplain.flat
  revert hflat
  decide +kernel

end Haruspex.CodingLoop
