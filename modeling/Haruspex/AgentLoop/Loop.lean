import Haruspex.AgentLoop.Calls

/-! A turn from its first model call to its end (`agent/loop/finalAnswer.ts`, `agent/loop/forcedFinal.ts`,
`agent/loop/iteration.ts`, `agent/loop.ts`). -/
namespace Haruspex.AgentLoop
open Actions JavaScript
set_option autoImplicit false

variable (env : Env) (texts : Texts) (options : AgentLoopOptions)

/-! ## The forced final tool -/

def forceFinalToolAlreadyCalled (messages : List ChatMessage) (name : String) : Bool :=
  messages.any (fun m => m.role == "assistant" && m.toolCalls.any (fun call => call.name == name))

/-- End the turn with a call of the tool, or empty. -/
def forceFinalToolCall (name : String) (completion : Option CompletionMeta) : Turn Unit := do
  appendMessage env (.user (texts.wording (.forceFinalTool name)))
  applyContextGuard env
  let response ← attempt (some <$> send env options) (fun e =>
    if e = .abort then fail e else pure none)
  match response with
  | none => onComplete env options completion
  | some response =>
    reportCall env
    let resolved ← resolvedCalls texts response options.tools
    let calls := resolved.filter (fun call => call.name == name)
    if calls.length = 0 then onComplete env options completion
    else
      let _ ← executeToolCalls env texts options calls (some response) false
      onComplete env options completion

/-- A file request that spent its budget without writing gets one call to write with. -/
def writeFileBeforeWrapUp : Turn Unit := do
  let writeTools := options.tools.filter (fun name => startsWith name "fs_write_")
  let w ← look
  if !options.expectsFileOutput || w.nudges.fileWritten || writeTools.length == 0 then pure ()
  else
    appendMessage env (.user (texts.wording .writeFileBeforeWrapUp))
    applyContextGuard env
    let response ← attempt (some <$> send env options) (fun e =>
      if e = .abort then fail e else pure none)
    match response with
    | none => pure ()
    | some response =>
      reportCall env
      let calls ← resolvedCalls texts response writeTools
      if calls.length > 0 then
        let _ ← executeToolCalls env texts options calls (some response) false
        pure ()
      else pure ()

/-- The forced tool, when it is still to be called. -/
def forcedToolDue : Turn (Option String) := do
  let w ← look
  pure (options.forceFinalTool.filter (fun name => !forceFinalToolAlreadyCalled w.messages name))

def runMaxIterationsFinalSynthesis (stopReason : StopReason) : Turn Unit := do
  let due ← forcedToolDue options
  match due with
  | some name => forceFinalToolCall env texts options name (some { stopReason })
  | none =>
    writeFileBeforeWrapUp env texts options
    let w ← look
    if w.usedTools then appendMessage env (.user (texts.wording (.wrapUp options.shellMode))) else pure ()
    let lastFinish ← streamFinalSynthesis env options (some false) true
    onComplete env options (some { stopReason })
    if lastFinish = some "length" then onError env (texts.outOfTokensMessage true) else pure ()

/-! ## The answer -/

def nudgeOnce (response : Response) (nudge : Nudge) (mark : NudgeState → NudgeState) :
    Turn (Option IterationOutcome) := do
  noteNudges mark
  armNarrateRecovery
  some <$> pushNudge env texts response nudge id

/-- The research and source-diversity nudges. -/
def researchGates (response : Response) : Turn (Option IterationOutcome) := do
  let w ← look
  if texts.turnRunsSkill w.messages then pure none
  else if w.nudges.needsResearchNudge w.usedTools (texts.looksLikeImageOnlyRequest w.messages) then
    nudgeOnce env texts response .research (fun s => { s with researchNudged := true })
  else if w.nudges.needsDiversityNudge w.usedTools then
    nudgeOnce env texts response (.diversity w.nudges.fetchedUrls.length)
      (fun s => { s with diversityNudged := true })
  else pure none

def phantomImageGate (response : Response) : Turn (Option IterationOutcome) := do
  let w ← look
  if w.nudges.needsPhantomImageNudge (response.content.any texts.wroteRemoteImageMarkdown) then
    nudgeOnce env texts response .phantomImage (fun s => { s with phantomImageNudged := true })
  else pure none

/-- The first of some guards that does not leave the response to the next. -/
def firstOf : List (Turn (Option IterationOutcome)) → Turn (Option IterationOutcome)
  | [] => pure none
  | guard :: guards => do
    let outcome ← guard
    match outcome with
    | some outcome => pure (some outcome)
    | none => firstOf guards

/-- Commit the answer, or stream it again. -/
def answer (response : Response) : Turn Unit := do
  if response.finishReason = "stop" ∧ response.content.any texts.hasNonThinkingContent = true then
    callback env
    onComplete env options none
  else
    let w ← look
    let lastFinish ← streamFinalSynthesis env options options.thinkingEnabled w.usedTools
    onComplete env options none
    if lastFinish = some "length" then onError env (texts.outOfTokensMessage w.usedTools) else pure ()

def finalizeNoToolCalls (response : Response) : Turn IterationOutcome := do
  let outcome ← firstOf [phantomImageGate env texts response, researchGates env texts response,
    continueForSteering env texts options response]
  match outcome with
  | some outcome => pure outcome
  | none =>
    let due ← forcedToolDue options
    match due with
    | some name => forceFinalToolCall env texts options name none
    | none => answer env texts options response
    pure .complete

/-! ## One iteration -/

def startIteration : Turn Unit :=
  update (fun w => { w with
    allWebReadsBlocked := false
    steeringContinue := false
    messages :=
      if w.pendingImages.length > 0 then w.messages ++ [texts.toolImagesMessage w.pendingImages]
      else w.messages
    pendingImages := [] })

def noToolCalls (response : Response) : Turn IterationOutcome := do
  let recovered ← firstOf [tryContinueOnLength env texts options response,
    tryMalformedToolCall env texts response, tryDegradedOutput texts response,
    tryNarrateRecovery env texts response, tryFileWriteRecovery env texts options response]
  match recovered with
  | some outcome => pure outcome
  | none => finalizeNoToolCalls env texts options response

def endTurnWhen : Turn Bool := if options.endsTurn then await env env.endTurnWhen else pure false

def withToolCalls (call : ModelCall) (steeringReply : Bool) : Turn IterationOutcome := do
  update (fun w => { w with usedTools := true })
  noteNudges (fun s => { s with pendingNarrateRecovery := false })
  let allWebReadsBlocked ←
    executeToolCalls env texts options call.toolCalls (some call.response) steeringReply
  update (fun w => { w with allWebReadsBlocked })
  if options.forceFinalTool.any (fun name => call.toolCalls.all (fun c => c.name == name)) then
    onComplete env options none
    pure .complete
  else
    let ended ← endTurnWhen env options
    if ended then
      onComplete env options none
      pure .complete
    else
      let w ← look
      if w.nudges.shouldStopForCommandRepeat then pure .stop
      else
        deliverSteering env texts options
        pure .goOn

def runIteration : Turn IterationOutcome := do
  startIteration texts
  let call ← runModelCall env texts options
  let w ← look
  update (fun w => { w with steeringReplyDue := false })
  match call.rejection with
  | some reason => handleRejectedToolCall env texts options call.response reason
  | none =>
    if call.toolCalls.length = 0 then noToolCalls env texts options call.response
    else withToolCalls env texts options call w.steeringReplyDue

/-! ## The loop -/

inductive Ending where
  | returned
  /-- The loop was cut off after so many iterations, still going. -/
  | running
  deriving DecidableEq

def runLoop : ℕ → ℕ → ℕ → Turn Ending
  | 0, _, _ => pure .running
  | fuel + 1, consumed, freeRetries =>
    if consumed < options.maxIterations then do
      checkAborted env
      let outcome ← runIteration env texts options
      match outcome with
      | .complete => pure .returned
      | .stop => do
        runMaxIterationsFinalSynthesis env texts options .forcedStop
        pure .returned
      | .goOn => do
        let w ← look
        if w.allWebReadsBlocked && freeRetries < options.maxIterations then
          runLoop fuel consumed (freeRetries + 1)
        else if w.steeringContinue then runLoop fuel consumed freeRetries
        else runLoop fuel (consumed + 1) freeRetries
    else do
      runMaxIterationsFinalSynthesis env texts options .maxIterations
      pure .returned

/-- Steering still queued when the turn is cancelled is given back. -/
def giveBack (e : Failure) : Turn Ending := do
  if e = .abort ∧ options.steers = true then
    let left ← queuedSteering
    if left.length > 0 then complete env (some { aborted := true, undeliveredSteering := left })
    else pure ()
  else pure ()
  fail e

def runAgentLoop (fuel : ℕ) : Turn Ending :=
  attempt (runLoop env texts options fuel 0 0) (giveBack env options)

/-- A turn that is about to start. -/
def World.start (messages : List ChatMessage) (early : List SteeringMessage) : World where
  now := 0
  queue := early
  typed := early
  messages
  entries := []
  completions := []
  errors := []
  usedTools := false
  allWebReadsBlocked := false
  steeringContinue := false
  steeringReplyDue := false
  pendingImages := []
  nudges := {}

end Haruspex.AgentLoop
