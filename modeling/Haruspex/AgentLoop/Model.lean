import Haruspex.JavaScript.Text
import Haruspex.Library.Actions

/-! What a turn remembers of its nudges (`agent/loop/nudges.ts`, `agent/tools/_toolResult.ts`). -/
namespace Haruspex.AgentLoop
open JavaScript
set_option autoImplicit false

/-- What the loop tells the model of its own accord. -/
inductive Nudge where
  | carryOn
  | reasoningOverrun (maxResponseTokens : ℕ)
  | malformedToolCall
  | narrateRecovery
  | toolCallRejected (reason : String)
  | fileWrite
  | phantomImage
  | research
  | diversity (fetchedCount : ℕ)
  | steeringNote (count : ℕ)
  | forceFinalTool (name : String)
  | writeFileBeforeWrapUp
  | wrapUp (shellMode : Bool)
  | runPythonHint (failures : ℕ)
  | runCommandHint (times : ℕ)

/-! ## Results of tools -/

def fetchFailurePrefixes : List String :=
  ["Failed to fetch", "Research sub-agent failed", "Paywalled:"]

def isFetchFailureResult (result : String) : Bool := fetchFailurePrefixes.any (startsWith result)

/-- `text.trimStart()` -/
def trimStart (text : String) : String := String.ofList (text.toList.dropWhile isBlank)

def isToolErrorResult (result : String) : Bool :=
  let r := trimStart result
  startsWith r "\x7b\"error\"" || startsWith r "Error:" || startsWith r "Lint failed" ||
    isFetchFailureResult r

def isRunPythonFailure (result : String) : Bool :=
  startsWith result "Error:" || startsWith result "Lint failed before running"

def pictureTools : List String := ["generate_image", "edit_image", "upscale_image"]

/-! ## The state -/

def maxFileWriteRetries : ℕ := 2

def maxTruncationRetries : ℕ := 2

def maxLengthContinueRetries : ℕ := 2

def runPythonFailureNudgeThreshold : ℕ := 3

def runCommandRepeatNudgeThreshold : ℕ := 2

def runCommandRepeatStopThreshold : ℕ := 3

structure NudgeState where
  fileWritten : Bool := false
  fileWriteRetries : ℕ := 0
  truncationRetries : ℕ := 0
  lengthContinueRetries : ℕ := 0
  webSearchUsed : Bool := false
  imageSearchUsed : Bool := false
  pictureMade : Bool := false
  researchNudged : Bool := false
  phantomImageNudged : Bool := false
  fetchedUrls : List String := []
  diversityNudged : Bool := false
  consecutiveRunPythonFailures : ℕ := 0
  lastRunCommand : Option String := none
  consecutiveSameRunCommand : ℕ := 0
  pendingNarrateRecovery : Bool := false

namespace NudgeState

def recordFetchedUrl (s : NudgeState) (url : String) : NudgeState :=
  { s with fetchedUrls := if url ∈ s.fetchedUrls then s.fetchedUrls else url :: s.fetchedUrls }

def needsResearchNudge (s : NudgeState) (usedTools imageOnlyRequest : Bool) : Bool :=
  usedTools && s.imageSearchUsed && !s.webSearchUsed && s.fetchedUrls.length == 0 &&
    !imageOnlyRequest && !s.pictureMade && !s.researchNudged

def needsPhantomImageNudge (s : NudgeState) (wroteImageMarkdown : Bool) : Bool :=
  wroteImageMarkdown && !s.imageSearchUsed && !s.phantomImageNudged

def needsFileWriteNudge (s : NudgeState) (expectsFileOutput : Bool) : Bool :=
  expectsFileOutput && !s.fileWritten && s.fileWriteRetries < maxFileWriteRetries

def needsTruncationRetry (s : NudgeState) : Bool := s.truncationRetries < maxTruncationRetries

def needsLengthContinueRetry (s : NudgeState) : Bool :=
  s.lengthContinueRetries < maxLengthContinueRetries

def needsDiversityNudge (s : NudgeState) (usedTools : Bool) : Bool :=
  usedTools && s.webSearchUsed && s.fetchedUrls.length ≤ 1 && !s.diversityNudged

/-- The state after a `run_python` result, and whether the result gets a hint. -/
def noteRunPython (s : NudgeState) (result : String) : NudgeState × Option Nudge :=
  if isRunPythonFailure result then
    let failures := s.consecutiveRunPythonFailures + 1
    ({ s with consecutiveRunPythonFailures := failures },
      if runPythonFailureNudgeThreshold ≤ failures then some (.runPythonHint failures) else none)
  else ({ s with consecutiveRunPythonFailures := 0 }, none)

def noteRunCommand (s : NudgeState) (command : String) : NudgeState × Option Nudge :=
  let cmd := trim command
  let s :=
    if cmd ≠ "" ∧ s.lastRunCommand = some cmd then
      { s with consecutiveSameRunCommand := s.consecutiveSameRunCommand + 1 }
    else
      { s with
        lastRunCommand := if cmd = "" then none else some cmd
        consecutiveSameRunCommand := 1 }
  (s,
    if runCommandRepeatNudgeThreshold ≤ s.consecutiveSameRunCommand then
      some (.runCommandHint s.consecutiveSameRunCommand)
    else none)

def noteNonRunCommandTool (s : NudgeState) : NudgeState :=
  { s with lastRunCommand := none, consecutiveSameRunCommand := 0 }

def shouldStopForCommandRepeat (s : NudgeState) : Bool :=
  runCommandRepeatStopThreshold ≤ s.consecutiveSameRunCommand

end NudgeState

end Haruspex.AgentLoop

/-! A turn of the agent loop: what it works with, and how it meets the caller and the model
(`agent/loop/context.ts`, `agent/loop.ts`). Whenever the loop calls back or waits, the user may have
typed something. -/
namespace Haruspex.AgentLoop
open Actions JavaScript
set_option autoImplicit false

/-! ## Messages -/

/-- A message the user typed while the turn ran, with the images attached to it. -/
structure SteeringMessage where
  text : String
  images : List String
  deriving DecidableEq

inductive ContentPart where
  | text (text : String)
  | imageUrl (url : String)

inductive Content where
  | text (text : String)
  | parts (parts : List ContentPart)

structure ResolvedToolCall where
  id : String
  name : String
  argumentsText : String
  url : Option String
  command : Option String

structure ChatMessage where
  role : String
  content : Content
  toolCalls : List ResolvedToolCall := []
  toolCallId : Option String := none

/-- A steering message as the `user` message the model reads, images after the text. -/
def steeringMessage (m : SteeringMessage) : ChatMessage :=
  if m.images.length = 0 then { role := "user", content := .text m.text }
  else
    { role := "user"
      content := .parts
        ((if trim m.text ≠ "" then [.text m.text] else []) ++ m.images.map .imageUrl) }

/-- What the loop appends to the conversation. -/
inductive Entry where
  | steering (m : SteeringMessage)
  | user (text : String)
  | assistant (text : String)
  | calls (text : String) (calls : List ResolvedToolCall)
  | toolResult (id : String) (text : String)

def Entry.message : Entry → ChatMessage
  | .steering m => steeringMessage m
  | .user text => { role := "user", content := .text text }
  | .assistant text => { role := "assistant", content := .text text }
  | .calls text batch => { role := "assistant", content := .text text, toolCalls := batch }
  | .toolResult id text => { role := "tool", content := .text text, toolCallId := some id }

def Entry.steering? : Entry → Option SteeringMessage
  | .steering m => some m
  | .user _ | .assistant _ | .calls _ _ | .toolResult _ _ => none

/-! ## The turn -/

inductive StopReason where
  | complete
  | maxIterations
  | forcedStop
  deriving DecidableEq

structure CompletionMeta where
  stopReason : StopReason := .complete
  aborted : Bool := false
  undeliveredSteering : List SteeringMessage := []

structure AgentLoopOptions where
  maxIterations : ℕ
  maxResponseTokens : ℕ
  expectsFileOutput : Bool
  shellMode : Bool
  streamToolRounds : Bool
  thinkingEnabled : Option Bool
  forceFinalTool : Option String
  /-- The names of the tools offered. -/
  tools : List String
  /-- There is an `endTurnWhen`. -/
  endsTurn : Bool
  /-- There is a `takeSteering`. -/
  steers : Bool

structure World where
  /-- How often the loop has called back or waited. -/
  now : ℕ
  /-- The caller's steering queue. -/
  queue : List SteeringMessage
  /-- All that was ever put into it. -/
  typed : List SteeringMessage
  messages : List ChatMessage
  entries : List Entry
  /-- What `onComplete` was called with, each time. -/
  completions : List (Option CompletionMeta)
  errors : List String
  usedTools : Bool
  allWebReadsBlocked : Bool
  steeringContinue : Bool
  steeringReplyDue : Bool
  pendingImages : List String
  nudges : NudgeState

inductive Failure where
  /-- An `AbortError`. -/
  | abort
  /-- The server refused the prompt as too long. -/
  | overflow
  | other (message : String)
  deriving DecidableEq

structure Response where
  content : Option String
  finishReason : String
  /-- The calls that came apart from the text: id, name and arguments. -/
  toolCalls : List (String × String × String)

inductive Resolution where
  | calls (calls : List ResolvedToolCall)
  | rejected (reason : String)
  | none

structure ToolOutput where
  result : String
  heroImage : Option String
  pendingImages : List String

structure StreamChunk where
  content : String
  finishReason : Option String

/-- What the user, the model, the tools and the context guard do, by the time it happens. -/
structure Env where
  typed : ℕ → List SteeringMessage
  aborted : ℕ → Bool
  model : ℕ → Except Failure Response
  /-- How many chunks of a round the caller is shown before it is whole. -/
  shown : ℕ → ℕ
  stream : ℕ → List StreamChunk × Option Failure
  tool : ℕ → Except Failure ToolOutput
  slot : ℕ → Except Failure Unit
  endTurnWhen : ℕ → Except Failure Bool
  /-- The conversation, once the guard or the in-loop trim has made it fit. -/
  fit : ℕ → List ChatMessage → List ChatMessage

/-- What is read off texts, and the wording of what the loop says. -/
structure Texts where
  wording : Nudge → String
  outOfTokensMessage : Bool → String
  rejectedCallMessage : Response → String → String
  stripThinkBlocks : String → String
  stripToolCallArtifacts : String → String
  toolRoundText : String → String
  hasNonThinkingContent : String → Bool
  looksLikeClarifyingQuestion : String → Bool
  wroteRemoteImageMarkdown : String → Bool
  hasCallMarkup : String → Bool
  looksDegraded : String → Bool
  looksLikeImageOnlyRequest : List ChatMessage → Bool
  turnRunsSkill : List ChatMessage → Bool
  toolImagesMessage : List String → ChatMessage
  resolveToolCalls : Response → List String → Except String Resolution

abbrev Turn := Action World Failure

variable (env : Env) (texts : Texts) (options : AgentLoopOptions)

/-! ## Calling back and waiting -/

/-- Time passes: the user may type. -/
def tick : Turn ℕ := fun w =>
  (.ok w.now, { w with
    now := w.now + 1
    queue := w.queue ++ env.typed w.now
    typed := w.typed ++ env.typed w.now })

def callback : Turn Unit := do
  let _ ← tick env
  pure ()

def ofExcept {T : Type} : Except Failure T → Turn T
  | .ok value => pure value
  | .error e => fail e

def await {T : Type} (outcome : ℕ → Except Failure T) : Turn T := do
  let now ← tick env
  ofExcept (outcome now)

def checkAborted : Turn Unit := do
  let w ← look
  if env.aborted w.now then fail .abort else pure ()

def appendMessage (entry : Entry) : Turn Unit := do
  update (fun w => { w with messages := w.messages ++ [entry.message], entries := w.entries ++ [entry] })
  callback env

def onError (message : String) : Turn Unit := do
  update (fun w => { w with errors := w.errors ++ [message] })
  callback env

/-! ## Steering (`agent/loop/steeringQueue.ts`) -/

def nonEmpty (m : SteeringMessage) : Bool := trim m.text ≠ "" || 0 < m.images.length

/-- Drain the steering queue, dropping empty entries. -/
def queuedSteering : Turn (List SteeringMessage) := fun w =>
  (.ok (w.queue.filter nonEmpty), { w with queue := [] })

def takeQueuedSteering : Turn (List SteeringMessage) :=
  if options.steers then queuedSteering else pure []

/-- `onComplete` as the caller gave it. -/
def complete (completion : Option CompletionMeta) : Turn Unit := do
  update (fun w => { w with completions := w.completions ++ [completion] })
  callback env

/-- `onComplete` with the steering handed back (`withSteeringHandback`). -/
def onComplete (completion : Option CompletionMeta) : Turn Unit := do
  let left ← takeQueuedSteering options
  complete env
    (if left.length > 0 then some { completion.getD {} with undeliveredSteering := left }
    else completion)

/-- Append steering, tell the caller it went, then add the note. -/
def appendSteering (steers : List SteeringMessage) : Turn Unit := do
  forEach (fun m => appendMessage env (.steering m)) steers
  callback env
  appendMessage env (.user (texts.wording (.steeringNote steers.length)))
  update (fun w => { w with steeringReplyDue := true })

/-- Deliver whatever steering is queued, at the iteration boundary. -/
def deliverSteering : Turn Unit := do
  let steers ← takeQueuedSteering options
  if steers.length > 0 then appendSteering env texts steers else pure ()

inductive IterationOutcome where
  | goOn
  | stop
  | complete
  deriving DecidableEq

/-- In place of finishing, when steering is queued. -/
def continueForSteering (response : Response) : Turn (Option IterationOutcome) := do
  let pending ← takeQueuedSteering options
  if pending.length = 0 then pure none
  else
    let content := response.content.getD ""
    if texts.hasNonThinkingContent content then
      callback env
      appendMessage env (.assistant (trimStart (texts.stripThinkBlocks content)))
    else pure ()
    appendSteering env texts pending
    update (fun w => { w with steeringContinue := true })
    pure (some .goOn)

end Haruspex.AgentLoop
