import Haruspex.AgentLoop.Model

/-! Model calls, recovery from them, and tool calls (`agent/loop/modelCall.ts`, `agent/loop/recovery.ts`,
`agent/loop/toolCalls.ts`). -/
namespace Haruspex.AgentLoop
open Actions JavaScript
set_option autoImplicit false

variable (env : Env) (texts : Texts) (options : AgentLoopOptions)

/-! ## Model calls -/

/-- The context guard, which tells the caller what it did. -/
def applyContextGuard : Turn Unit := do
  let w ← look
  update (fun w' => { w' with messages := env.fit w.now w'.messages })
  callback env

/-- One request, which shows the caller the round as it comes if asked to. -/
def send : Turn Response := do
  let w ← look
  if options.streamToolRounds then
    forEach (fun _ => callback env) (List.replicate (env.shown w.now) ())
  else pure ()
  await env env.model

/-- A request with the guard ahead of it, sent again once when the prompt was still too long. -/
def sendGuardedCompletion : Turn Response := do
  applyContextGuard env
  attempt (send env options) (fun e =>
    if e = .overflow then do
      applyContextGuard env
      send env options
    else fail e)

/-- Usage, reasoning and timing. -/
def reportCall : Turn Unit := do
  callback env
  callback env

structure ModelCall where
  response : Response
  toolCalls : List ResolvedToolCall
  rejection : Option String

/-- The calls of a round; what cannot be read is left to the recovery guards. -/
def readCalls (response : Response) (tools : List String) : ModelCall :=
  match texts.resolveToolCalls response tools with
  | .ok (.calls calls) => ⟨response, calls, none⟩
  | .ok (.rejected reason) => ⟨response, [], some reason⟩
  | .ok .none | .error _ => ⟨response, [], none⟩

/-- The calls of a response, where what cannot be read is no call. -/
def resolvedCalls (response : Response) (tools : List String) : Turn (List ResolvedToolCall) :=
  match texts.resolveToolCalls response tools with
  | .ok (.calls calls) => pure calls
  | .ok (.rejected _) | .ok .none => pure []
  | .error message => fail (.other message)

def runModelCall : Turn ModelCall := do
  let response ← sendGuardedCompletion env options
  reportCall env
  applyContextGuard env
  pure (readCalls texts response options.tools)

/-- One stream to its end: how it finished, and how much content came. -/
def streamChunks : List StreamChunk → Option Failure → Option String → ℕ → Turn (Option String × ℕ)
  | [], some e, _, _ => fail e
  | [], none, lastFinish, totalContent => pure (lastFinish, totalContent)
  | chunk :: chunks, failure, lastFinish, totalContent => do
    callback env
    streamChunks chunks failure (chunk.finishReason.or lastFinish)
      (totalContent + JavaScript.length chunk.content)

def streamSynthesisOnce : Turn (Option String × ℕ) := do
  applyContextGuard env
  let now ← tick env
  let stream := env.stream now
  let result ← streamChunks env stream.1 stream.2 none 0
  reportCall env
  pure result

/-- A synthesis call ended in a way that a retry can't improve on. -/
def answered (result : Option String × ℕ) (aborted : Bool) : Bool :=
  0 < result.2 || result.1 == some "length" || aborted

def streamFinalSynthesis (thinking : Option Bool) (answerOnly : Bool) : Turn (Option String) := do
  let result ← streamSynthesisOnce env
  let w ← look
  if answered result (env.aborted w.now) || !answerOnly || options.tools.length == 0 then pure result.1
  else do
    let retried ←
      if thinking ≠ some false then do
        let retry ← streamSynthesisOnce env
        let w ← look
        pure (if answered retry (env.aborted w.now) then some retry.1 else none)
      else pure none
    match retried with
    | some lastFinish => pure lastFinish
    | none => do
      let last ← streamSynthesisOnce env
      pure last.1

/-! ## Recovery -/

def noteNudges (f : NudgeState → NudgeState) : Turn Unit := update (fun w => { w with nudges := f w.nudges })

def armNarrateRecovery : Turn Unit := noteNudges (fun s => { s with pendingNarrateRecovery := true })

/-- Echo the model's content, then the nudge. -/
def pushNudge (response : Response) (nudge : Nudge) (echo : String → String) : Turn IterationOutcome := do
  appendMessage env (.assistant (echo (response.content.getD "")))
  appendMessage env (.user (texts.wording nudge))
  pure .goOn

def tryContinueOnLength (response : Response) : Turn (Option IterationOutcome) := do
  if response.finishReason ≠ "length" then pure none
  else
    let w ← look
    if w.usedTools || response.content.any texts.hasNonThinkingContent then
      some <$> pushNudge env texts response .carryOn (fun text => trimStart (texts.stripThinkBlocks text))
    else if !w.nudges.needsLengthContinueRetry then pure none
    else
      noteNudges (fun s => { s with lengthContinueRetries := s.lengthContinueRetries + 1 })
      appendMessage env (.user (texts.wording (.reasoningOverrun options.maxResponseTokens)))
      pure (some .goOn)

def tryMalformedToolCall (response : Response) : Turn (Option IterationOutcome) := do
  let w ← look
  if w.usedTools && response.content.any texts.hasCallMarkup then
    some <$> pushNudge env texts response .malformedToolCall texts.stripToolCallArtifacts
  else pure none

def tryDegradedOutput (response : Response) : Turn (Option IterationOutcome) := do
  let w ← look
  if w.usedTools && texts.looksDegraded (trim (response.content.getD "")) then pure (some .stop)
  else pure none

def tryNarrateRecovery (response : Response) : Turn (Option IterationOutcome) := do
  let w ← look
  if w.nudges.pendingNarrateRecovery &&
      !texts.looksLikeClarifyingQuestion (response.content.getD "") then
    noteNudges (fun s => { s with pendingNarrateRecovery := false })
    some <$> pushNudge env texts response .narrateRecovery id
  else pure none

def tryFileWriteRecovery (response : Response) : Turn (Option IterationOutcome) := do
  let w ← look
  if w.nudges.needsFileWriteNudge options.expectsFileOutput &&
      !texts.looksLikeClarifyingQuestion (response.content.getD "") then
    noteNudges (fun s => { s with fileWriteRetries := s.fileWriteRetries + 1 })
    armNarrateRecovery
    some <$> pushNudge env texts response .fileWrite id
  else pure none

def handleRejectedToolCall (response : Response) (reason : String) : Turn IterationOutcome := do
  let w ← look
  if w.nudges.needsTruncationRetry then
    noteNudges (fun s => { s with truncationRetries := s.truncationRetries + 1 })
    pushNudge env texts response (.toolCallRejected reason) texts.stripToolCallArtifacts
  else
    onComplete env options none
    onError env (texts.rejectedCallMessage response reason)
    pure .complete

/-! ## Tool calls -/

/-- The text kept on a round's calls message. -/
def toolRoundContent (response : Option Response) (steeringReply : Bool) : Turn String := do
  if !options.streamToolRounds && !steeringReply then pure ""
  else
    let text := texts.toolRoundText ((response.bind Response.content).getD "")
    if steeringReply && !options.streamToolRounds && text ≠ "" then callback env else pure ()
    pure text

def runCall (call : ResolvedToolCall) : Turn ToolOutput := do
  checkAborted env
  callback env
  let output ← await env env.tool
  callback env
  update (fun w => { w with pendingImages := w.pendingImages ++ output.pendingImages })
  pure output

def isWebRead (call : ResolvedToolCall) : Bool := call.name == "fetch_url" || call.name == "research_url"

/-- A web read that something outside kept from being read. -/
def isBlocked (call : ResolvedToolCall) (result : String) : Bool :=
  (call.name == "web_search" && isToolErrorResult result) ||
    (isWebRead call && isFetchFailureResult result)

/-- The nudges' state after a result, and the text the model is given. -/
def noteResult (call : ResolvedToolCall) (output : ToolOutput) (s : NudgeState) : NudgeState × String :=
  let s := { s with
    fileWritten := s.fileWritten ||
      (startsWith call.name "fs_write_" && !includes output.result "\"error\"")
    imageSearchUsed := s.imageSearchUsed || call.name == "image_search"
    pictureMade := s.pictureMade || (pictureTools.contains call.name && !isToolErrorResult output.result)
    webSearchUsed := s.webSearchUsed || call.name == "web_search" }
  let fetched := if isWebRead call && !isFetchFailureResult output.result then call.url.filter (· ≠ "") else none
  let s := match fetched with
    | some url => s.recordFetchedUrl url
    | none => s
  let content := match fetched with
    | some url =>
      "[Source: " ++ url ++ "]" ++
        (match output.heroImage with | some image => "\n[Image: " ++ image ++ "]" | none => "") ++
        "\n\n" ++ output.result
    | none => output.result
  let (s, hint) := if call.name == "run_python" then s.noteRunPython content else (s, none)
  let content := content ++ (hint.map texts.wording).getD ""
  let (s, hint) :=
    if call.name == "run_command" then s.noteRunCommand (call.command.getD "")
    else (s.noteNonRunCommandTool, none)
  (s, content ++ (hint.map texts.wording).getD "")

def recordResult (call : ResolvedToolCall) (output : ToolOutput) : Turn Unit := do
  let w ← look
  let (nudges, content) := noteResult texts call output w.nudges
  noteNudges (fun _ => nudges)
  appendMessage env (.toolResult call.id content)

/-- The calls, whose results are recorded in call order, and whether each was blocked. -/
def runCalls : List ResolvedToolCall → Turn Bool
  | [] => pure true
  | call :: calls => do
    await env env.slot
    let output ← runCall env call
    recordResult env texts call output
    let later ← runCalls calls
    pure (isBlocked call output.result && later)

def executeToolCalls (calls : List ResolvedToolCall) (response : Option Response)
    (steeringReply : Bool) : Turn Bool := do
  let text ← toolRoundContent env texts options response steeringReply
  appendMessage env (.calls text calls)
  let allWebReadsBlocked ← runCalls env texts calls
  await env env.slot
  pure allWebReadsBlocked

end Haruspex.AgentLoop
