import Haruspex.AgentLoop.Steering

/-! Each part of a turn keeps the account of the steering, and `onComplete` is called by the last. -/
namespace Haruspex.AgentLoop
open Actions JavaScript
set_option autoImplicit false

variable {env : Env} {texts : Texts} {options : AgentLoopOptions} {n : ℕ} {T : Type}

/-! ## Model calls -/

theorem applyContextGuard_keeps : Keeps (Stage n) (applyContextGuard env) := by
  refine Keeps.ofLook.bind fun w => ?_
  refine Keeps.bind (Keeps.ofUpdate fun w' hw => ?_) fun _ => callback_keeps
  exact hw.keep rfl rfl rfl rfl

theorem send_keeps : Keeps (Stage n) (send env options) := by
  refine Keeps.ofLook.bind fun w => ?_
  refine Keeps.ofIte (fun _ => ?_) (fun _ => Keeps.ofPure.bind fun _ => await_keeps _)
  exact (Keeps.ofForEach (fun _ => callback_keeps) _).bind fun _ => await_keeps _

theorem sendGuardedCompletion_keeps : Keeps (Stage n) (sendGuardedCompletion env options) := by
  refine applyContextGuard_keeps.bind fun _ => send_keeps.ofAttempt fun e => ?_
  exact Keeps.ofIte (fun _ => applyContextGuard_keeps.bind fun _ => send_keeps) fun _ => Keeps.ofFail

theorem reportCall_keeps : Keeps (Stage n) (reportCall env) :=
  callback_keeps.bind fun _ => callback_keeps

theorem resolvedCalls_keeps (response : Response) (tools : List String) :
    Keeps (Stage n) (resolvedCalls texts response tools) := by
  unfold resolvedCalls
  split
  · exact Keeps.ofPure
  · exact Keeps.ofPure
  · exact Keeps.ofPure
  · exact Keeps.ofFail

theorem runModelCall_keeps : Keeps (Stage n) (runModelCall env texts options) := by
  refine sendGuardedCompletion_keeps.bind fun response => ?_
  refine reportCall_keeps.bind fun _ => ?_
  exact applyContextGuard_keeps.bind fun _ => Keeps.ofPure

theorem streamChunks_keeps (chunks : List StreamChunk) (failure : Option Failure)
    (lastFinish : Option String) (totalContent : ℕ) :
    Keeps (Stage n) (streamChunks env chunks failure lastFinish totalContent) := by
  induction chunks generalizing lastFinish totalContent with
  | nil =>
    cases failure with
    | none => exact Keeps.ofPure
    | some e => exact Keeps.ofFail
  | cons chunk chunks ih => exact callback_keeps.bind fun _ => ih _ _

theorem streamSynthesisOnce_keeps : Keeps (Stage n) (streamSynthesisOnce env) := by
  refine applyContextGuard_keeps.bind fun _ => tick_stage.keeps.bind fun now => ?_
  refine (streamChunks_keeps _ _ _ _).bind fun result => ?_
  exact reportCall_keeps.bind fun _ => Keeps.ofPure

theorem streamFinalSynthesis_keeps (thinking : Option Bool) (answerOnly : Bool) :
    Keeps (Stage n) (streamFinalSynthesis env options thinking answerOnly) := by
  refine streamSynthesisOnce_keeps.bind fun result => Keeps.ofLook.bind fun w => ?_
  refine Keeps.ofIte (fun _ => Keeps.ofPure) fun _ => ?_
  have hlast : Keeps (Stage n) (streamSynthesisOnce env >>= fun last => pure last.1) :=
    streamSynthesisOnce_keeps.bind fun _ => Keeps.ofPure
  refine Keeps.ofIte (fun _ => ?_) fun _ => Keeps.ofPure.bind (Keeps.ofOption (fun _ => Keeps.ofPure) hlast)
  refine streamSynthesisOnce_keeps.bind fun retry => Keeps.ofLook.bind fun w => ?_
  exact Keeps.ofPure.bind (Keeps.ofOption (fun _ => Keeps.ofPure) hlast)

/-! ## Recovery -/

theorem noteNudges_keeps (f : NudgeState → NudgeState) : Keeps (Stage n) (noteNudges f) :=
  Keeps.ofUpdate fun _ hw => hw.keep rfl rfl rfl rfl

theorem armNarrateRecovery_keeps : Keeps (Stage n) armNarrateRecovery := noteNudges_keeps _

theorem pushNudge_called (response : Response) (nudge : Nudge) (echo : String → String) :
    Ensures (Stage 0) (pushNudge env texts response nudge echo) (Called IterationOutcome.calls) := by
  refine Called.after (appendMessage_keeps rfl) fun _ => ?_
  exact Called.after (appendMessage_keeps rfl) fun _ => Called.ofPure rfl

theorem some_pushNudge_called (response : Response) (nudge : Nudge) (echo : String → String) :
    Ensures (Stage 0) (some <$> pushNudge env texts response nudge echo) (Called guardCalls) :=
  Called.bind (pushNudge_called response nudge echo) fun _ => Called.ofPure rfl

theorem tryContinueOnLength_called (response : Response) :
    Ensures (Stage 0) (tryContinueOnLength env texts options response) (Called guardCalls) := by
  refine Ensures.ofIte (fun _ => Called.ofPure rfl) fun _ => Called.after Keeps.ofLook fun w => ?_
  refine Ensures.ofIte (fun _ => some_pushNudge_called _ _ _) fun _ => ?_
  refine Ensures.ofIte (fun _ => Called.ofPure rfl) fun _ => ?_
  refine Called.after (noteNudges_keeps _) fun _ => ?_
  exact Called.after (appendMessage_keeps rfl) fun _ => Called.ofPure rfl

theorem tryMalformedToolCall_called (response : Response) :
    Ensures (Stage 0) (tryMalformedToolCall env texts response) (Called guardCalls) := by
  refine Called.after Keeps.ofLook fun w => ?_
  exact Ensures.ofIte (fun _ => some_pushNudge_called _ _ _) fun _ => Called.ofPure rfl

theorem tryDegradedOutput_called (response : Response) :
    Ensures (Stage 0) (tryDegradedOutput texts response) (Called guardCalls) := by
  refine Called.after Keeps.ofLook fun w => ?_
  exact Ensures.ofIte (fun _ => Called.ofPure rfl) fun _ => Called.ofPure rfl

theorem tryNarrateRecovery_called (response : Response) :
    Ensures (Stage 0) (tryNarrateRecovery env texts response) (Called guardCalls) := by
  refine Called.after Keeps.ofLook fun w => ?_
  refine Ensures.ofIte (fun _ => ?_) fun _ => Called.ofPure rfl
  exact Called.after (noteNudges_keeps _) fun _ => some_pushNudge_called _ _ _

theorem tryFileWriteRecovery_called (response : Response) :
    Ensures (Stage 0) (tryFileWriteRecovery env texts options response) (Called guardCalls) := by
  refine Called.after Keeps.ofLook fun w => ?_
  refine Ensures.ofIte (fun _ => ?_) fun _ => Called.ofPure rfl
  refine Called.after (noteNudges_keeps _) fun _ => ?_
  exact Called.after armNarrateRecovery_keeps fun _ => some_pushNudge_called _ _ _

theorem handleRejectedToolCall_called (response : Response) (reason : String) :
    Ensures (Stage 0) (handleRejectedToolCall env texts options response reason)
      (Called IterationOutcome.calls) := by
  refine Called.after Keeps.ofLook fun w => ?_
  refine Ensures.ofIte (fun _ => ?_) fun _ => ?_
  · exact Called.after (noteNudges_keeps _) fun _ => pushNudge_called _ _ _
  · refine Called.bind (onComplete_called rfl) fun _ => ?_
    refine Ensures.bind (onError_called _) (fun _ => ?_) fun _ _ hw => hw
    exact Called.ofPure rfl

/-! ## Tool calls -/

theorem toolRoundContent_keeps (response : Option Response) (steeringReply : Bool) :
    Keeps (Stage n) (toolRoundContent env texts options response steeringReply) := by
  refine Keeps.ofIte (fun _ => Keeps.ofPure) fun _ => ?_
  refine Keeps.ofIte (fun _ => ?_) fun _ => Keeps.ofPure
  exact callback_keeps.bind fun _ => Keeps.ofPure

theorem runCall_keeps (call : ResolvedToolCall) : Keeps (Stage n) (runCall env call) := by
  refine checkAborted_keeps.bind fun _ => callback_keeps.bind fun _ => ?_
  refine (await_keeps _).bind fun output => callback_keeps.bind fun _ => ?_
  exact (Keeps.ofUpdate fun w hw => hw.keep rfl rfl rfl rfl).bind fun _ => Keeps.ofPure

theorem recordResult_keeps (call : ResolvedToolCall) (output : ToolOutput) :
    Keeps (Stage n) (recordResult env texts call output) := by
  refine Keeps.ofLook.bind fun w => (noteNudges_keeps _).bind fun _ => ?_
  exact appendMessage_keeps rfl

theorem runCalls_keeps (calls : List ResolvedToolCall) : Keeps (Stage n) (runCalls env texts calls) := by
  induction calls with
  | nil => exact Keeps.ofPure
  | cons call calls ih =>
    refine (await_keeps _).bind fun _ => (runCall_keeps call).bind fun output => ?_
    exact (recordResult_keeps call output).bind fun _ => ih.bind fun _ => Keeps.ofPure

theorem executeToolCalls_keeps (calls : List ResolvedToolCall) (response : Option Response)
    (steeringReply : Bool) :
    Keeps (Stage n) (executeToolCalls env texts options calls response steeringReply) := by
  refine (toolRoundContent_keeps _ _).bind fun text => (appendMessage_keeps rfl).bind fun _ => ?_
  exact (runCalls_keeps calls).bind fun _ => (await_keeps _).bind fun _ => Keeps.ofPure

/-! ## The forced final tool -/

/-- A request whose failure, but for an abort, is no answer. -/
theorem sendOrNone_keeps : Keeps (Stage n) (attempt (some <$> send env options) (fun e =>
    if e = .abort then fail e else pure none)) := by
  refine Keeps.ofAttempt (send_keeps.bind fun _ => Keeps.ofPure) fun e => ?_
  exact Keeps.ofIte (fun _ => Keeps.ofFail) fun _ => Keeps.ofPure

theorem forceFinalToolCall_called (name : String) {completion : Option CompletionMeta}
    (hnone : (completion.getD {}).undeliveredSteering = []) :
    Ensures (Stage 0) (forceFinalToolCall env texts options name completion) (Called fun _ => 1) := by
  refine Called.after (appendMessage_keeps rfl) fun _ => ?_
  refine Called.after applyContextGuard_keeps fun _ => Called.after sendOrNone_keeps fun response => ?_
  cases response with
  | none => exact onComplete_called hnone
  | some response =>
    refine Called.after reportCall_keeps fun _ => ?_
    refine Called.after (resolvedCalls_keeps _ _) fun resolved => ?_
    refine Ensures.ofIte (fun _ => onComplete_called hnone) fun _ => ?_
    exact Called.after (executeToolCalls_keeps _ _ _) fun _ => onComplete_called hnone

theorem writeFileBeforeWrapUp_keeps : Keeps (Stage n) (writeFileBeforeWrapUp env texts options) := by
  refine Keeps.ofLook.bind fun w => Keeps.ofIte (fun _ => Keeps.ofPure) fun _ => ?_
  refine (appendMessage_keeps rfl).bind fun _ => applyContextGuard_keeps.bind fun _ => ?_
  refine sendOrNone_keeps.bind fun response => ?_
  cases response with
  | none => exact Keeps.ofPure
  | some response =>
    refine reportCall_keeps.bind fun _ => (resolvedCalls_keeps _ _).bind fun calls => ?_
    refine Keeps.ofIte (fun _ => ?_) fun _ => Keeps.ofPure
    exact (executeToolCalls_keeps _ _ _).bind fun _ => Keeps.ofPure

theorem forcedToolDue_keeps : Keeps (Stage n) (forcedToolDue options) :=
  Keeps.ofLook.bind fun _ => Keeps.ofPure

/-- The caller is told of an answer cut off after it was committed. -/
theorem onError_if_called {c : Prop} [Decidable c] (message : String) :
    Ensures (Stage 1) (if c then onError env message else pure ()) (Called fun _ => 1) :=
  Ensures.ofIte (fun _ => onError_called message) fun _ => Called.ofPure rfl

theorem runMaxIterationsFinalSynthesis_called (stopReason : StopReason) :
    Ensures (Stage 0) (runMaxIterationsFinalSynthesis env texts options stopReason)
      (Called fun _ => 1) := by
  refine Called.after forcedToolDue_keeps fun due => ?_
  cases due with
  | some name => exact forceFinalToolCall_called name rfl
  | none =>
    have hrest : Ensures (Stage 0) (do
        let lastFinish ← streamFinalSynthesis env options (some false) true
        onComplete env options (some { stopReason })
        if lastFinish = some "length" then onError env (texts.outOfTokensMessage true) else pure ())
        (Called fun _ => 1) := by
      refine Called.after (streamFinalSynthesis_keeps _ _) fun lastFinish => ?_
      exact Called.bind (onComplete_called rfl) fun _ => onError_if_called _
    refine Called.after writeFileBeforeWrapUp_keeps fun _ => Called.after Keeps.ofLook fun w => ?_
    refine Ensures.ofIte (fun _ => ?_) fun _ => hrest
    exact Called.after (appendMessage_keeps rfl) fun _ => hrest

/-! ## The answer -/

theorem nudgeOnce_called (response : Response) (nudge : Nudge) (mark : NudgeState → NudgeState) :
    Ensures (Stage 0) (nudgeOnce env texts response nudge mark) (Called guardCalls) := by
  refine Called.after (noteNudges_keeps _) fun _ => ?_
  exact Called.after armNarrateRecovery_keeps fun _ => some_pushNudge_called _ _ _

theorem researchGates_called (response : Response) :
    Ensures (Stage 0) (researchGates env texts response) (Called guardCalls) := by
  refine Called.after Keeps.ofLook fun w => Ensures.ofIte (fun _ => Called.ofPure rfl) fun _ => ?_
  refine Ensures.ofIte (fun _ => nudgeOnce_called _ _ _) fun _ => ?_
  exact Ensures.ofIte (fun _ => nudgeOnce_called _ _ _) fun _ => Called.ofPure rfl

theorem phantomImageGate_called (response : Response) :
    Ensures (Stage 0) (phantomImageGate env texts response) (Called guardCalls) := by
  refine Called.after Keeps.ofLook fun w => ?_
  exact Ensures.ofIte (fun _ => nudgeOnce_called _ _ _) fun _ => Called.ofPure rfl

theorem firstOf_called {guards : List (Turn (Option IterationOutcome))}
    (h : ∀ guard ∈ guards, Ensures (Stage 0) guard (Called guardCalls)) :
    Ensures (Stage 0) (firstOf guards) (Called guardCalls) := by
  induction guards with
  | nil => exact Called.ofPure rfl
  | cons guard guards ih =>
    refine Called.bind (h guard (by simp)) fun outcome => ?_
    cases outcome with
    | some outcome => exact Called.ofPure rfl
    | none => exact ih fun other hother => h other (by simp [hother])

theorem answer_called (response : Response) :
    Ensures (Stage 0) (answer env texts options response) (Called fun _ => 1) := by
  refine Ensures.ofIte (fun _ => ?_) fun _ => Called.after Keeps.ofLook fun w => ?_
  · exact Called.after callback_keeps fun _ => onComplete_called rfl
  · refine Called.after (streamFinalSynthesis_keeps _ _) fun lastFinish => ?_
    exact Called.bind (onComplete_called rfl) fun _ => onError_if_called _

theorem finalizeNoToolCalls_called (response : Response) :
    Ensures (Stage 0) (finalizeNoToolCalls env texts options response)
      (Called IterationOutcome.calls) := by
  have hguards : Ensures (Stage 0) (firstOf [phantomImageGate env texts response,
      researchGates env texts response, continueForSteering env texts options response])
      (Called guardCalls) := by
    refine firstOf_called fun guard hguard => ?_
    simp only [List.mem_cons, List.not_mem_nil, or_false] at hguard
    obtain rfl | rfl | rfl := hguard
    · exact phantomImageGate_called response
    · exact researchGates_called response
    · exact continueForSteering_called response
  refine Called.bind hguards fun outcome => ?_
  cases outcome with
  | some outcome => exact Called.ofPure rfl
  | none =>
    refine Called.after forcedToolDue_keeps fun due => ?_
    cases due with
    | some name => exact Called.bind (forceFinalToolCall_called name rfl) fun _ => Called.ofPure rfl
    | none => exact Called.bind (answer_called response) fun _ => Called.ofPure rfl

/-! ## One iteration -/

theorem startIteration_keeps : Keeps (Stage n) (startIteration texts) :=
  Keeps.ofUpdate fun _ hw => hw.keep rfl rfl rfl rfl

theorem noToolCalls_called (response : Response) :
    Ensures (Stage 0) (noToolCalls env texts options response) (Called IterationOutcome.calls) := by
  have hguards : Ensures (Stage 0) (firstOf [tryContinueOnLength env texts options response,
      tryMalformedToolCall env texts response, tryDegradedOutput texts response,
      tryNarrateRecovery env texts response, tryFileWriteRecovery env texts options response])
      (Called guardCalls) := by
    refine firstOf_called fun guard hguard => ?_
    simp only [List.mem_cons, List.not_mem_nil, or_false] at hguard
    obtain rfl | rfl | rfl | rfl | rfl := hguard
    · exact tryContinueOnLength_called response
    · exact tryMalformedToolCall_called response
    · exact tryDegradedOutput_called response
    · exact tryNarrateRecovery_called response
    · exact tryFileWriteRecovery_called response
  refine Called.bind hguards fun outcome => ?_
  cases outcome with
  | some outcome => exact Called.ofPure rfl
  | none => exact finalizeNoToolCalls_called response

theorem endTurnWhen_keeps : Keeps (Stage n) (endTurnWhen env options) :=
  Keeps.ofIte (fun _ => await_keeps _) fun _ => Keeps.ofPure

theorem withToolCalls_called (call : ModelCall) (steeringReply : Bool) :
    Ensures (Stage 0) (withToolCalls env texts options call steeringReply)
      (Called IterationOutcome.calls) := by
  have hcomplete : Ensures (Stage 0) (do
      onComplete env options none
      pure IterationOutcome.complete) (Called IterationOutcome.calls) :=
    Called.bind (onComplete_called rfl) fun _ => Called.ofPure rfl
  refine Called.after (Keeps.ofUpdate fun w hw => hw.keep rfl rfl rfl rfl) fun _ => ?_
  refine Called.after (noteNudges_keeps _) fun _ => ?_
  refine Called.after (executeToolCalls_keeps _ _ _) fun allWebReadsBlocked => ?_
  refine Called.after (Keeps.ofUpdate fun w hw => hw.keep rfl rfl rfl rfl) fun _ => ?_
  refine Ensures.ofIte (fun _ => hcomplete) fun _ => Called.after endTurnWhen_keeps fun ended => ?_
  refine Ensures.ofIte (fun _ => hcomplete) fun _ => Called.after Keeps.ofLook fun w => ?_
  refine Ensures.ofIte (fun _ => Called.ofPure rfl) fun _ => ?_
  exact Called.after deliverSteering_keeps fun _ => Called.ofPure rfl

theorem runIteration_called :
    Ensures (Stage 0) (runIteration env texts options) (Called IterationOutcome.calls) := by
  refine Called.after startIteration_keeps fun _ => Called.after runModelCall_keeps fun call => ?_
  refine Called.after Keeps.ofLook fun w => ?_
  refine Called.after (Keeps.ofUpdate fun w hw => hw.keep rfl rfl rfl rfl) fun _ => ?_
  cases call.rejection with
  | some reason => exact handleRejectedToolCall_called _ reason
  | none =>
    refine Ensures.ofIte (fun _ => noToolCalls_called _) fun _ => ?_
    exact withToolCalls_called call _

/-! ## The loop -/

def Ending.calls : Ending → ℕ
  | .returned => 1
  | .running => 0

theorem runLoop_called (fuel consumed freeRetries : ℕ) :
    Ensures (Stage 0) (runLoop env texts options fuel consumed freeRetries) (Called Ending.calls) := by
  induction fuel generalizing consumed freeRetries with
  | zero => exact Called.ofPure rfl
  | succ fuel ih =>
    have hsynthesis (stopReason : StopReason) : Ensures (Stage 0) (do
        runMaxIterationsFinalSynthesis env texts options stopReason
        pure Ending.returned) (Called Ending.calls) :=
      Called.bind (runMaxIterationsFinalSynthesis_called stopReason) fun _ => Called.ofPure rfl
    refine Ensures.ofIte (fun _ => ?_) fun _ => hsynthesis .maxIterations
    refine Called.after checkAborted_keeps fun _ => Called.bind runIteration_called fun outcome => ?_
    cases outcome with
    | complete => exact Called.ofPure rfl
    | stop => exact hsynthesis .forcedStop
    | goOn =>
      refine Called.after Keeps.ofLook fun w => Ensures.ofIte (fun _ => ih _ _) fun _ => ?_
      exact Ensures.ofIte (fun _ => ih _ _) fun _ => ih _ _

/-- What a run leaves. -/
structure Settled (r : Except Failure Ending) (w : World) : Prop where
  accounted : Accounted w
  atMostOnce : w.completions.length ≤ 1
  once : r = .ok .returned → w.completions.length = 1

theorem Stage.settled {w : World} {r : Except Failure Ending} (h : Stage n w) (hn : n ≤ 1)
    (hr : r = .ok .returned → n = 1) : Settled r w :=
  ⟨h.accounted, by rw [h.completions]; exact hn, fun hreturned => by rw [h.completions, hr hreturned]⟩

theorem giveBack_settled (e : Failure) : Ensures (Stage 0) (giveBack env options e) Settled := by
  have hfail : Ensures (Stage 0) (fail e) Settled := fun w hw => hw.settled (by omega) nofun
  refine Ensures.ofIte (fun _ => ?_) fun _ => hfail
  refine Taken.bind queuedSteering_taken fun left => Ensures.ofIte (fun _ => ?_) fun hnone => ?_
  · refine (complete_stage (some { aborted := true, undeliveredSteering := left })).thenEnsures ?_
    exact fun _ w hw => hw.settled (by omega) nofun
  · have hempty : left = [] := by simpa using hnone
    subst hempty
    exact fun w hw => hfail w hw.stage

end Haruspex.AgentLoop
