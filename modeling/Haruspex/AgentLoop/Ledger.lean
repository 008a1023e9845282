import Haruspex.AgentLoop.Loop
import Haruspex.Library.Actions
import Mathlib.Data.List.Forall2

/-! The turn with a book of its passes: what each pass did with the calls of its response, whether it went on for
steering, how it came out and whether it was taken from the budget. -/
namespace Haruspex.AgentLoop
open Actions JavaScript
set_option autoImplicit false

deriving instance DecidableEq for ResolvedToolCall

/-! ## The book -/

structure Pass where
  /-- What the model called. -/
  calls : List ResolvedToolCall := []
  /-- What came of the calls, in order. -/
  results : List (ResolvedToolCall × ToolOutput) := []
  /-- The model would have finished, and steering was queued. -/
  steered : Bool := false
  outcome : Option IterationOutcome := none
  /-- Taken from the budget. -/
  spent : Bool := false

/-- Every call was a web read that something outside kept from being read. -/
def Pass.Blocked (p : Pass) : Prop :=
  p.calls ≠ [] ∧ p.results.map Prod.fst = p.calls ∧ ∀ r ∈ p.results, isBlocked r.1 r.2.result = true

instance (p : Pass) : Decidable p.Blocked := inferInstanceAs (Decidable (_ ∧ _ ∧ _))

structure Book where
  /-- The latest first. -/
  passes : List Pass := []
  /-- Why the turn was wrapped up, and after how many passes. -/
  syntheses : List (StopReason × ℕ) := []

def Book.opened (book : Book) : Book := { book with passes := {} :: book.passes }

def Book.amend (f : Pass → Pass) (book : Book) : Book := { book with passes := book.passes.modifyHead f }

def Book.wrappedUp (reason : StopReason) (book : Book) : Book :=
  { book with syntheses := (reason, book.passes.length) :: book.syntheses }

abbrev Keeping := Action (World × Book) Failure

namespace Kept

variable (env : Env) (texts : Texts) (options : AgentLoopOptions)

/-! ## The turn, keeping the book -/

def runCalls : List ResolvedToolCall → Keeping Bool
  | [] => pure true
  | call :: calls => do
    beside (await env env.slot)
    let output ← beside (runCall env call)
    record (Book.amend (fun p => { p with results := p.results ++ [(call, output)] }))
    beside (recordResult env texts call output)
    let later ← runCalls calls
    pure (isBlocked call output.result && later)

def executeToolCalls (calls : List ResolvedToolCall) (response : Option Response) (steeringReply : Bool) :
    Keeping Bool := do
  let text ← beside (toolRoundContent env texts options response steeringReply)
  beside (appendMessage env (.calls text calls))
  let allWebReadsBlocked ← runCalls env texts calls
  beside (await env env.slot)
  pure allWebReadsBlocked

def withToolCalls (call : ModelCall) (steeringReply : Bool) : Keeping IterationOutcome := do
  record (Book.amend (fun p => { p with calls := call.toolCalls }))
  beside (update (fun w => { w with usedTools := true }))
  beside (noteNudges (fun s => { s with pendingNarrateRecovery := false }))
  let allWebReadsBlocked ← executeToolCalls env texts options call.toolCalls (some call.response) steeringReply
  beside (update (fun w => { w with allWebReadsBlocked }))
  if options.forceFinalTool.any (fun name => call.toolCalls.all (fun c => c.name == name)) then
    beside (onComplete env options none)
    pure .complete
  else
    let ended ← beside (endTurnWhen env options)
    if ended then
      beside (onComplete env options none)
      pure .complete
    else
      let w ← beside look
      if w.nudges.shouldStopForCommandRepeat then pure .stop
      else
        beside (deliverSteering env texts options)
        pure .goOn

def continueForSteering (response : Response) : Keeping (Option IterationOutcome) := do
  let outcome ← beside (AgentLoop.continueForSteering env texts options response)
  record (Book.amend (fun p => { p with steered := outcome.isSome }))
  pure outcome

def firstOf : List (Keeping (Option IterationOutcome)) → Keeping (Option IterationOutcome)
  | [] => pure none
  | guard :: guards => do
    let outcome ← guard
    match outcome with
    | some outcome => pure (some outcome)
    | none => firstOf guards

def finalizeNoToolCalls (response : Response) : Keeping IterationOutcome := do
  let outcome ← firstOf [beside (phantomImageGate env texts response), beside (researchGates env texts response),
    continueForSteering env texts options response]
  match outcome with
  | some outcome => pure outcome
  | none =>
    let due ← beside (forcedToolDue options)
    match due with
    | some name => beside (forceFinalToolCall env texts options name none)
    | none => beside (answer env texts options response)
    pure .complete

def noToolCalls (response : Response) : Keeping IterationOutcome := do
  let recovered ← firstOf [beside (tryContinueOnLength env texts options response),
    beside (tryMalformedToolCall env texts response), beside (tryDegradedOutput texts response),
    beside (tryNarrateRecovery env texts response), beside (tryFileWriteRecovery env texts options response)]
  match recovered with
  | some outcome => pure outcome
  | none => finalizeNoToolCalls env texts options response

def runIteration : Keeping IterationOutcome := do
  beside (startIteration texts)
  let call ← beside (runModelCall env texts options)
  let w ← beside look
  beside (update (fun w => { w with steeringReplyDue := false }))
  match call.rejection with
  | some reason => beside (handleRejectedToolCall env texts options call.response reason)
  | none =>
    if call.toolCalls.length = 0 then noToolCalls env texts options call.response
    else withToolCalls env texts options call w.steeringReplyDue

def wrapUp (reason : StopReason) : Keeping Ending := do
  record (Book.wrappedUp reason)
  beside (runMaxIterationsFinalSynthesis env texts options reason)
  pure .returned

def runLoop : ℕ → ℕ → ℕ → Keeping Ending
  | 0, _, _ => pure .running
  | fuel + 1, consumed, freeRetries =>
    if consumed < options.maxIterations then do
      beside (checkAborted env)
      record Book.opened
      let outcome ← runIteration env texts options
      record (Book.amend (fun p => { p with outcome := some outcome }))
      match outcome with
      | .complete => pure .returned
      | .stop => wrapUp env texts options .forcedStop
      | .goOn => do
        let w ← beside look
        if w.allWebReadsBlocked && freeRetries < options.maxIterations then
          runLoop fuel consumed (freeRetries + 1)
        else if w.steeringContinue then runLoop fuel consumed freeRetries
        else do
          record (Book.amend (fun p => { p with spent := true }))
          runLoop fuel (consumed + 1) freeRetries
    else wrapUp env texts options .maxIterations

/-! ## Without the book -/

variable {env texts options}

theorem runCalls_erases (calls : List ResolvedToolCall) :
    Erases (runCalls env texts calls) (AgentLoop.runCalls env texts calls) := by
  induction calls with
  | nil => exact .ofPure
  | cons call calls ih =>
    refine .bind .ofBeside fun _ => .bind .ofBeside fun output => .recording _ ?_
    exact .bind .ofBeside fun _ => .bind ih fun _ => .ofPure

theorem executeToolCalls_erases (calls : List ResolvedToolCall) (response : Option Response)
    (steeringReply : Bool) :
    Erases (executeToolCalls env texts options calls response steeringReply)
      (AgentLoop.executeToolCalls env texts options calls response steeringReply) := by
  refine .bind .ofBeside fun text => .bind .ofBeside fun _ => ?_
  exact .bind (runCalls_erases calls) fun _ => .bind .ofBeside fun _ => .ofPure

theorem withToolCalls_erases (call : ModelCall) (steeringReply : Bool) :
    Erases (withToolCalls env texts options call steeringReply)
      (AgentLoop.withToolCalls env texts options call steeringReply) := by
  refine .recording _ <| .bind .ofBeside fun _ => .bind .ofBeside fun _ => ?_
  refine .bind (executeToolCalls_erases _ _ _) fun _ => .bind .ofBeside fun _ => ?_
  refine .ofIte (.bind .ofBeside fun _ => .ofPure) <| .bind .ofBeside fun ended => ?_
  refine .ofIte (.bind .ofBeside fun _ => .ofPure) <| .bind .ofBeside fun w => ?_
  exact .ofIte .ofPure <| .bind .ofBeside fun _ => .ofPure

theorem firstOf_erases {kept : List (Keeping (Option IterationOutcome))}
    {guards : List (Turn (Option IterationOutcome))} (h : List.Forall₂ Erases kept guards) :
    Erases (firstOf kept) (AgentLoop.firstOf guards) := by
  induction h with
  | nil => exact .ofPure
  | cons hguard _ ih =>
    refine .bind hguard fun outcome => ?_
    cases outcome with
    | some outcome => exact .ofPure
    | none => exact ih

theorem continueForSteering_erases (response : Response) :
    Erases (continueForSteering env texts options response)
      (AgentLoop.continueForSteering env texts options response) := .thenRecord .ofBeside

theorem finalizeNoToolCalls_erases (response : Response) :
    Erases (finalizeNoToolCalls env texts options response)
      (AgentLoop.finalizeNoToolCalls env texts options response) := by
  refine .bind (firstOf_erases ?_) fun outcome => ?_
  · exact .cons .ofBeside <| .cons .ofBeside <| .cons (continueForSteering_erases response) .nil
  · cases outcome with
    | some outcome => exact .ofPure
    | none =>
      refine .bind .ofBeside fun due => ?_
      cases due with
      | some name => exact .bind .ofBeside fun _ => .ofPure
      | none => exact .bind .ofBeside fun _ => .ofPure

theorem noToolCalls_erases (response : Response) :
    Erases (noToolCalls env texts options response) (AgentLoop.noToolCalls env texts options response) := by
  refine .bind (firstOf_erases ?_) fun recovered => ?_
  · exact .cons .ofBeside <| .cons .ofBeside <| .cons .ofBeside <| .cons .ofBeside <| .cons .ofBeside .nil
  · cases recovered with
    | some outcome => exact .ofPure
    | none => exact finalizeNoToolCalls_erases response

theorem runIteration_erases : Erases (runIteration env texts options) (AgentLoop.runIteration env texts options) := by
  refine .bind .ofBeside fun _ => .bind .ofBeside fun call => .bind .ofBeside fun w => .bind .ofBeside fun _ => ?_
  cases call.rejection with
  | some reason => exact .ofBeside
  | none => exact .ofIte (noToolCalls_erases _) (withToolCalls_erases _ _)

theorem wrapUp_erases (reason : StopReason) :
    Erases (wrapUp env texts options reason) (do
      runMaxIterationsFinalSynthesis env texts options reason
      pure .returned) :=
  .recording _ <| .bind .ofBeside fun _ => .ofPure

/-- The book changes nothing of what the loop does. -/
theorem runLoop_erases (fuel consumed freeRetries : ℕ) :
    Erases (runLoop env texts options fuel consumed freeRetries)
      (AgentLoop.runLoop env texts options fuel consumed freeRetries) := by
  induction fuel generalizing consumed freeRetries with
  | zero => exact .ofPure
  | succ fuel ih =>
    refine .ofIte (.bind .ofBeside fun _ => .recording _ ?_) (wrapUp_erases _)
    refine .bind runIteration_erases fun outcome => .recording _ ?_
    cases outcome with
    | complete => exact .ofPure
    | stop => exact wrapUp_erases _
    | goOn =>
      refine .bind .ofBeside fun w => .ofIte (ih _ _) <| .ofIte (ih _ _) ?_
      exact .recording _ (ih _ _)

end Kept

end Haruspex.AgentLoop
