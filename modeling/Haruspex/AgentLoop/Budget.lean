import Haruspex.AgentLoop.Ledger
import Mathlib.Algebra.Order.Group.Nat

/-! Nothing but its own branch touches the flags that make an iteration free. -/
namespace Haruspex.AgentLoop
open Actions JavaScript
set_option autoImplicit false

structure Flags (blocked steered : Bool) (w : World) : Prop where
  blocked : w.allWebReadsBlocked = blocked
  steered : w.steeringContinue = steered

variable {env : Env} {texts : Texts} {options : AgentLoopOptions} {blocked steered : Bool} {T : Type}

/-! ## Calling back, waiting and appending -/

theorem tick_flags : Keeps (Flags blocked steered) (tick env) := fun _ hw => ⟨hw.blocked, hw.steered⟩

theorem callback_flags : Keeps (Flags blocked steered) (callback env) := tick_flags.bind fun _ => Keeps.ofPure

theorem await_flags (outcome : ℕ → Except Failure T) : Keeps (Flags blocked steered) (await env outcome) := by
  refine tick_flags.bind fun now => ?_
  cases outcome now with
  | ok value => exact Keeps.ofPure
  | error e => exact Keeps.ofFail

theorem checkAborted_flags : Keeps (Flags blocked steered) (checkAborted env) :=
  Keeps.ofLook.bind fun _ => Keeps.ofIte (fun _ => Keeps.ofFail) fun _ => Keeps.ofPure

theorem appendMessage_flags (entry : Entry) : Keeps (Flags blocked steered) (appendMessage env entry) := by
  refine Keeps.bind (Keeps.ofUpdate fun w hw => ?_) fun _ => callback_flags
  exact ⟨hw.blocked, hw.steered⟩

/-! ## Steering -/

theorem takeQueuedSteering_flags : Keeps (Flags blocked steered) (takeQueuedSteering options) :=
  Keeps.ofIte (fun _ _ hw => ⟨hw.blocked, hw.steered⟩) fun _ => Keeps.ofPure

theorem appendSteering_flags (steers : List SteeringMessage) :
    Keeps (Flags blocked steered) (appendSteering env texts steers) := by
  refine (Keeps.ofForEach (fun m => appendMessage_flags (.steering m)) steers).bind fun _ => ?_
  refine callback_flags.bind fun _ => (appendMessage_flags _).bind fun _ => ?_
  exact Keeps.ofUpdate fun w hw => ⟨hw.blocked, hw.steered⟩

theorem deliverSteering_flags : Keeps (Flags blocked steered) (deliverSteering env texts options) :=
  takeQueuedSteering_flags.bind fun steers => Keeps.ofIte (fun _ => appendSteering_flags steers) fun _ => Keeps.ofPure

/-- The one place that marks an iteration as continued for steering, and only when it was. -/
theorem continueForSteering_flags (response : Response) :
    Ensures (Flags blocked false) (continueForSteering env texts options response)
      (fun r w => ∀ outcome, r = .ok outcome → Flags blocked outcome.isSome w) := by
  refine Ensures.bind takeQueuedSteering_flags (fun pending => ?_) fun e w _ => nofun
  refine Ensures.ofIte (fun _ w hw outcome hout => ?_) fun _ => ?_
  · cases hout
    exact hw
  · have hrest : Ensures (Flags blocked false) (do
        appendSteering env texts pending
        update (fun w => { w with steeringContinue := true })
        pure (some IterationOutcome.goOn))
        (fun r w => ∀ outcome, r = .ok outcome → Flags blocked outcome.isSome w) := by
      refine Ensures.bind (appendSteering_flags pending) (fun _ w hw outcome hout => ?_) fun e w _ => nofun
      cases hout
      exact ⟨hw.blocked, rfl⟩
    refine Ensures.ofIte (fun _ => ?_) fun _ => hrest
    refine Ensures.bind callback_flags (fun _ => ?_) fun e w _ => nofun
    exact Ensures.bind (appendMessage_flags _) (fun _ => hrest) fun e w _ => nofun

/-! ## Model calls -/

theorem applyContextGuard_flags : Keeps (Flags blocked steered) (applyContextGuard env) := by
  refine Keeps.ofLook.bind fun _ => Keeps.bind (Keeps.ofUpdate fun w hw => ?_) fun _ => callback_flags
  exact ⟨hw.blocked, hw.steered⟩

theorem send_flags : Keeps (Flags blocked steered) (send env options) := by
  refine Keeps.ofLook.bind fun w => ?_
  refine Keeps.ofIte (fun _ => ?_) fun _ => Keeps.ofPure.bind fun _ => await_flags _
  exact (Keeps.ofForEach (fun _ => callback_flags) _).bind fun _ => await_flags _

theorem sendGuardedCompletion_flags : Keeps (Flags blocked steered) (sendGuardedCompletion env options) := by
  refine applyContextGuard_flags.bind fun _ => send_flags.ofAttempt fun e => ?_
  exact Keeps.ofIte (fun _ => applyContextGuard_flags.bind fun _ => send_flags) fun _ => Keeps.ofFail

theorem reportCall_flags : Keeps (Flags blocked steered) (reportCall env) :=
  callback_flags.bind fun _ => callback_flags

theorem runModelCall_flags : Keeps (Flags blocked steered) (runModelCall env texts options) := by
  refine sendGuardedCompletion_flags.bind fun response => reportCall_flags.bind fun _ => ?_
  exact applyContextGuard_flags.bind fun _ => Keeps.ofPure

/-! ## Guards and nudges -/

theorem noteNudges_flags (f : NudgeState → NudgeState) : Keeps (Flags blocked steered) (noteNudges f) :=
  Keeps.ofUpdate fun _ hw => ⟨hw.blocked, hw.steered⟩

theorem pushNudge_flags (response : Response) (nudge : Nudge) (echo : String → String) :
    Keeps (Flags blocked steered) (pushNudge env texts response nudge echo) :=
  (appendMessage_flags _).bind fun _ => (appendMessage_flags _).bind fun _ => Keeps.ofPure

theorem some_pushNudge_flags (response : Response) (nudge : Nudge) (echo : String → String) :
    Keeps (Flags blocked steered) (some <$> pushNudge env texts response nudge echo) :=
  (pushNudge_flags response nudge echo).bind fun _ => Keeps.ofPure

theorem tryContinueOnLength_flags (response : Response) :
    Keeps (Flags blocked steered) (tryContinueOnLength env texts options response) := by
  refine Keeps.ofIte (fun _ => Keeps.ofPure) fun _ => Keeps.ofLook.bind fun w => ?_
  refine Keeps.ofIte (fun _ => some_pushNudge_flags _ _ _) fun _ => Keeps.ofIte (fun _ => Keeps.ofPure) fun _ => ?_
  exact (noteNudges_flags _).bind fun _ => (appendMessage_flags _).bind fun _ => Keeps.ofPure

theorem tryMalformedToolCall_flags (response : Response) :
    Keeps (Flags blocked steered) (tryMalformedToolCall env texts response) :=
  Keeps.ofLook.bind fun _ => Keeps.ofIte (fun _ => some_pushNudge_flags _ _ _) fun _ => Keeps.ofPure

theorem tryDegradedOutput_flags (response : Response) :
    Keeps (Flags blocked steered) (tryDegradedOutput texts response) :=
  Keeps.ofLook.bind fun _ => Keeps.ofIte (fun _ => Keeps.ofPure) fun _ => Keeps.ofPure

theorem tryNarrateRecovery_flags (response : Response) :
    Keeps (Flags blocked steered) (tryNarrateRecovery env texts response) := by
  refine Keeps.ofLook.bind fun w => Keeps.ofIte (fun _ => ?_) fun _ => Keeps.ofPure
  exact (noteNudges_flags _).bind fun _ => some_pushNudge_flags _ _ _

theorem tryFileWriteRecovery_flags (response : Response) :
    Keeps (Flags blocked steered) (tryFileWriteRecovery env texts options response) := by
  refine Keeps.ofLook.bind fun w => Keeps.ofIte (fun _ => ?_) fun _ => Keeps.ofPure
  exact (noteNudges_flags _).bind fun _ => (noteNudges_flags _).bind fun _ => some_pushNudge_flags _ _ _

theorem nudgeOnce_flags (response : Response) (nudge : Nudge) (mark : NudgeState → NudgeState) :
    Keeps (Flags blocked steered) (nudgeOnce env texts response nudge mark) :=
  (noteNudges_flags _).bind fun _ => (noteNudges_flags _).bind fun _ => some_pushNudge_flags _ _ _

theorem researchGates_flags (response : Response) :
    Keeps (Flags blocked steered) (researchGates env texts response) := by
  refine Keeps.ofLook.bind fun w => Keeps.ofIte (fun _ => Keeps.ofPure) fun _ => ?_
  refine Keeps.ofIte (fun _ => nudgeOnce_flags _ _ _) fun _ => ?_
  exact Keeps.ofIte (fun _ => nudgeOnce_flags _ _ _) fun _ => Keeps.ofPure

theorem phantomImageGate_flags (response : Response) :
    Keeps (Flags blocked steered) (phantomImageGate env texts response) :=
  Keeps.ofLook.bind fun _ => Keeps.ofIte (fun _ => nudgeOnce_flags _ _ _) fun _ => Keeps.ofPure

/-! ## Tool calls -/

theorem toolRoundContent_flags (response : Option Response) (steeringReply : Bool) :
    Keeps (Flags blocked steered) (toolRoundContent env texts options response steeringReply) := by
  refine Keeps.ofIte (fun _ => Keeps.ofPure) fun _ => Keeps.ofIte (fun _ => ?_) fun _ => Keeps.ofPure
  exact callback_flags.bind fun _ => Keeps.ofPure

theorem runCall_flags (call : ResolvedToolCall) : Keeps (Flags blocked steered) (runCall env call) := by
  refine checkAborted_flags.bind fun _ => callback_flags.bind fun _ => (await_flags _).bind fun output => ?_
  refine callback_flags.bind fun _ => Keeps.bind (Keeps.ofUpdate fun w hw => ?_) fun _ => Keeps.ofPure
  exact ⟨hw.blocked, hw.steered⟩

theorem recordResult_flags (call : ResolvedToolCall) (output : ToolOutput) :
    Keeps (Flags blocked steered) (recordResult env texts call output) :=
  Keeps.ofLook.bind fun _ => (noteNudges_flags _).bind fun _ => appendMessage_flags _

theorem endTurnWhen_flags : Keeps (Flags blocked steered) (endTurnWhen env options) :=
  Keeps.ofIte (fun _ => await_flags _) fun _ => Keeps.ofPure

end Haruspex.AgentLoop

/-! How many passes a turn makes, and which of them its budget pays for. -/
namespace Haruspex.AgentLoop
open Actions JavaScript
set_option autoImplicit false

variable {env : Env} {texts : Texts} {options : AgentLoopOptions} {blocked steered : Bool} {T : Type}
  {earlier : List Pass} {syntheses : List (StopReason × ℕ)} {p : Pass}

/-! ## A pass under way -/

/-- The flags, and the pass the book is open at. -/
structure Underway (earlier : List Pass) (syntheses : List (StopReason × ℕ)) (p : Pass) (blocked steered : Bool)
    (s : World × Book) : Prop where
  flags : Flags blocked steered s.1
  book : s.2 = ⟨p :: earlier, syntheses⟩

theorem beside_underway {act : Turn T} (h : Keeps (Flags blocked steered) act) :
    Keeps (Underway earlier syntheses p blocked steered) (beside act) :=
  fun s hs => ⟨h s.1 hs.flags, hs.book⟩

theorem amend_underway (f : Pass → Pass) (w : World) (book : Book)
    (h : Underway earlier syntheses p blocked steered (w, book)) :
    Underway earlier syntheses (f p) blocked steered (w, book.amend f) := by
  have hbook : book = ⟨p :: earlier, syntheses⟩ := h.book
  subst hbook
  exact ⟨h.flags, rfl⟩

/-- How an iteration leaves its pass: if the loop goes on, the flags are about this pass. -/
structure Left (earlier : List Pass) (syntheses : List (StopReason × ℕ)) (r : Except Failure IterationOutcome)
    (p : Pass) (s : World × Book) : Prop where
  book : s.2 = ⟨p :: earlier, syntheses⟩
  outcome : p.outcome = none
  spent : p.spent = false
  exclusive : p.steered = true → ¬ p.Blocked
  flags : r = .ok .goOn → (s.1.allWebReadsBlocked = true ↔ p.Blocked) ∧ s.1.steeringContinue = p.steered

def Leaves (earlier : List Pass) (syntheses : List (StopReason × ℕ)) (r : Except Failure IterationOutcome)
    (s : World × Book) : Prop := ∃ p, Left earlier syntheses r p s

/-- A pass of which nothing is known yet, but that it is not spent and not both blocked and steered. -/
structure Fresh (p : Pass) : Prop where
  outcome : p.outcome = none
  spent : p.spent = false
  exclusive : p.steered = true → ¬ p.Blocked

theorem Fresh.left {s : World × Book} {r : Except Failure IterationOutcome} (hp : Fresh p)
    (hbook : s.2 = ⟨p :: earlier, syntheses⟩) (hr : r ≠ .ok .goOn) : Left earlier syntheses r p s :=
  ⟨hbook, hp.outcome, hp.spent, hp.exclusive, fun h => absurd h hr⟩

/-- What completes the turn leaves the pass as it was. -/
theorem completes_leaves {act : Keeping T} (hp : Fresh p)
    (hact : Keeps (fun s => s.2 = ⟨p :: earlier, syntheses⟩) act) :
    Ensures (fun s => s.2 = ⟨p :: earlier, syntheses⟩) (act >>= fun _ => pure IterationOutcome.complete)
      (Leaves earlier syntheses) :=
  Ensures.bind hact (fun _ _ hs => ⟨p, hp.left hs nofun⟩) fun _ _ hs => ⟨p, hp.left hs nofun⟩

theorem beside_book {act : Turn T} :
    Keeps (fun s : World × Book => s.2 = ⟨p :: earlier, syntheses⟩) (beside act) := fun _ hs => hs

/-! ## Tool calls -/

/-- The results are in the pass in call order, and it is known whether all of them were blocked. -/
def Recorded (earlier : List Pass) (syntheses : List (StopReason × ℕ)) (p : Pass) (blocked steered : Bool)
    (calls : List ResolvedToolCall) (r : Except Failure Bool) (s : World × Book) : Prop :=
  ∃ results, Underway earlier syntheses { p with results := p.results ++ results } blocked steered s ∧
    ∀ all, r = .ok all → results.map Prod.fst = calls ∧
      (all = true ↔ ∀ x ∈ results, isBlocked x.1 x.2.result = true)

variable {calls : List ResolvedToolCall}

theorem Recorded.ofFailed {e : Failure} {s : World × Book} (hs : Underway earlier syntheses p blocked steered s) :
    Recorded earlier syntheses p blocked steered calls (.error e) s :=
  ⟨[], by rw [List.append_nil]; exact hs, nofun⟩

namespace Kept

theorem runCalls_recorded (calls : List ResolvedToolCall) :
    Ensures (Underway earlier syntheses p blocked steered) (runCalls env texts calls)
      (Recorded earlier syntheses p blocked steered calls) := by
  induction calls generalizing p with
  | nil =>
    refine Ensures.ofPure fun s hs => ⟨[], by rw [List.append_nil]; exact hs, fun all hall => ?_⟩
    cases hall
    simp
  | cons call calls ih =>
    refine Ensures.bind (beside_underway (await_flags _)) (fun _ => ?_) fun e s hs => .ofFailed hs
    refine Ensures.bind (beside_underway (runCall_flags call)) (fun output => ?_) fun e s hs => .ofFailed hs
    refine Ensures.recording (amend_underway _) ?_
    refine Ensures.bind (beside_underway (recordResult_flags call output)) (fun _ => ?_) fun e s hs => ⟨_, hs, nofun⟩
    refine Ensures.bind ih (fun later s hs => ?_) fun e s hs => ?_
    · obtain ⟨results, hunder, hlater⟩ := hs
      obtain ⟨hcalls, hall⟩ := hlater later rfl
      refine ⟨(call, output) :: results, by rw [List.append_assoc] at hunder; exact hunder, fun all hall' => ?_⟩
      cases hall'
      refine ⟨by rw [List.map_cons, hcalls], ?_⟩
      rw [Bool.and_eq_true, hall, List.forall_mem_cons]
    · obtain ⟨results, hunder, -⟩ := hs
      exact ⟨(call, output) :: results, by rw [List.append_assoc] at hunder; exact hunder, nofun⟩

theorem executeToolCalls_recorded (calls : List ResolvedToolCall) (response : Option Response) (steeringReply : Bool) :
    Ensures (Underway earlier syntheses p blocked steered)
      (executeToolCalls env texts options calls response steeringReply)
      (Recorded earlier syntheses p blocked steered calls) := by
  refine Ensures.bind (beside_underway (toolRoundContent_flags _ _)) (fun text => ?_) fun e s hs => .ofFailed hs
  refine Ensures.bind (beside_underway (appendMessage_flags _)) (fun _ => ?_) fun e s hs => .ofFailed hs
  refine Ensures.bind (runCalls_recorded calls) (fun all s hs => ?_) fun e s hs => ?_
  · obtain ⟨results, hunder, hall⟩ := hs
    have hslot : Ensures (Underway earlier syntheses { p with results := p.results ++ results } blocked steered)
        (beside (await env env.slot) >>= fun _ => pure all) (Recorded earlier syntheses p blocked steered calls) := by
      refine Ensures.bind (beside_underway (await_flags _)) (fun _ s hs => ⟨results, hs, fun all' hall' => ?_⟩)
        fun e s hs => ⟨results, hs, nofun⟩
      cases hall'
      exact hall all rfl
    exact hslot s hunder
  · obtain ⟨results, hunder, -⟩ := hs
    exact ⟨results, hunder, nofun⟩

theorem withToolCalls_leaves (call : ModelCall) (steeringReply : Bool) (hcalls : call.toolCalls ≠ []) :
    Ensures (Underway earlier syntheses {} false false) (withToolCalls env texts options call steeringReply)
      (Leaves earlier syntheses) := by
  refine Ensures.recording (amend_underway _) ?_
  have hfresh (results : List (ResolvedToolCall × ToolOutput)) :
      Fresh { calls := call.toolCalls, results := results } := ⟨rfl, rfl, nofun⟩
  refine Ensures.bind (beside_underway (Keeps.ofUpdate fun w hw => ⟨hw.blocked, hw.steered⟩)) (fun _ => ?_)
    fun e s hs => ⟨_, (hfresh []).left hs.book nofun⟩
  refine Ensures.bind (beside_underway (noteNudges_flags _)) (fun _ => ?_)
    fun e s hs => ⟨_, (hfresh []).left hs.book nofun⟩
  refine Ensures.bind (executeToolCalls_recorded _ _ _) (fun all s hs => ?_) fun e s hs => ?_
  · obtain ⟨results, hunder, hall⟩ := hs
    obtain ⟨hmap, hblocked⟩ := hall all rfl
    have hiff : all = true ↔ Pass.Blocked { calls := call.toolCalls, results := results } := by
      rw [hblocked]
      exact ⟨fun h => ⟨hcalls, hmap, h⟩, fun h => h.2.2⟩
    have hmark : Ensures (Underway earlier syntheses { calls := call.toolCalls, results := results } false false)
        (beside (update (fun w => { w with allWebReadsBlocked := all }) : Turn Unit))
        (fun _ => Underway earlier syntheses { calls := call.toolCalls, results := results } all false) :=
      fun s hs => ⟨⟨rfl, hs.flags.steered⟩, hs.book⟩
    refine Ensures.bind (S := Leaves earlier syntheses) hmark (fun _ => ?_)
      (fun e s hs => ⟨_, (hfresh results).left hs.book nofun⟩) s hunder
    have hcomplete : Ensures (Underway earlier syntheses { calls := call.toolCalls, results := results } all false) (do
        beside (onComplete env options none)
        pure IterationOutcome.complete) (Leaves earlier syntheses) :=
      (completes_leaves (hfresh results) beside_book).mono (fun s hs => hs.book) fun _ _ h => h
    refine Ensures.ofIte (fun _ => hcomplete) fun _ => ?_
    refine Ensures.bind (beside_underway endTurnWhen_flags) (fun ended => ?_)
      fun e s hs => ⟨_, (hfresh results).left hs.book nofun⟩
    refine Ensures.ofIte (fun _ => hcomplete) fun _ => ?_
    refine Ensures.bind (beside_underway Keeps.ofLook) (fun w => ?_)
      fun e s hs => ⟨_, (hfresh results).left hs.book nofun⟩
    refine Ensures.ofIte (fun _ s hs => ⟨_, (hfresh results).left hs.book nofun⟩) fun _ => ?_
    refine Ensures.bind (beside_underway deliverSteering_flags) (fun _ s hs => ?_)
      fun e s hs => ⟨_, (hfresh results).left hs.book nofun⟩
    refine ⟨_, hs.book, rfl, rfl, nofun, fun _ => ⟨?_, hs.flags.steered⟩⟩
    change s.1.allWebReadsBlocked = true ↔ _
    rw [hs.flags.blocked]
    exact hiff
  · obtain ⟨results, hunder, -⟩ := hs
    exact ⟨_, (hfresh results).left hunder.book nofun⟩

/-! ## No calls -/

theorem firstOf_keeps {I : World × Book → Prop} {guards : List (Keeping (Option IterationOutcome))}
    (h : ∀ guard ∈ guards, Keeps I guard) : Keeps I (firstOf guards) := by
  induction guards with
  | nil => exact Keeps.ofPure
  | cons guard guards ih =>
    refine (h guard List.mem_cons_self).bind fun outcome => ?_
    cases outcome with
    | some outcome => exact Keeps.ofPure
    | none => exact ih fun other hother => h other (List.mem_cons_of_mem guard hother)

theorem not_blocked_empty {steered : Bool} : ¬ Pass.Blocked { steered := steered } := fun h => h.1 rfl

theorem fresh_empty (steered : Bool) : Fresh { steered := steered } := ⟨rfl, rfl, fun _ => not_blocked_empty⟩

/-- A pass without calls, and whether it goes on for steering. -/
def NoCalls {T : Type} (earlier : List Pass) (syntheses : List (StopReason × ℕ)) (r : Except Failure T)
    (s : World × Book) : Prop :=
  ∃ steered, s.2 = ⟨{ steered := steered } :: earlier, syntheses⟩ ∧ ∀ a, r = .ok a → Flags false steered s.1

theorem NoCalls.ofUnderway {T : Type} {s : World × Book} {r : Except Failure T}
    (h : Underway earlier syntheses {} false false s) : NoCalls earlier syntheses r s :=
  ⟨false, h.book, fun _ _ => h.flags⟩

theorem NoCalls.leaves {s : World × Book} {r : Except Failure IterationOutcome} (h : NoCalls earlier syntheses r s) :
    Leaves earlier syntheses r s := by
  obtain ⟨steered, hbook, hflags⟩ := h
  refine ⟨_, hbook, rfl, rfl, fun _ => not_blocked_empty, fun hr => ?_⟩
  have hknown := hflags .goOn hr
  refine ⟨?_, hknown.steered⟩
  rw [hknown.blocked]
  exact ⟨nofun, fun hblocked => absurd hblocked not_blocked_empty⟩

theorem continueForSteering_noCalls (response : Response) :
    Ensures (Underway earlier syntheses {} false false) (continueForSteering env texts options response)
      (NoCalls earlier syntheses) := by
  refine Ensures.bind (R := fun r s => s.2 = ⟨{} :: earlier, syntheses⟩ ∧
    ∀ outcome, r = .ok outcome → Flags false outcome.isSome s.1) ?_ (fun outcome s hs => ?_) fun e s hs => ?_
  · exact fun s hs => ⟨hs.book, continueForSteering_flags response s.1 hs.flags⟩
  · refine ⟨outcome.isSome, ?_, fun _ _ => hs.2 outcome rfl⟩
    change s.2.amend _ = _
    rw [hs.1]
    rfl
  · exact ⟨false, hs.1, nofun⟩

theorem firstOf_noCalls {guards : List (Keeping (Option IterationOutcome))} {last : Keeping (Option IterationOutcome)}
    (h : ∀ guard ∈ guards, Keeps (Underway earlier syntheses {} false false) guard)
    (hlast : Ensures (Underway earlier syntheses {} false false) last (NoCalls earlier syntheses)) :
    Ensures (Underway earlier syntheses {} false false) (firstOf (guards ++ [last])) (NoCalls earlier syntheses) := by
  induction guards with
  | nil =>
    refine Ensures.bind hlast (fun outcome => ?_) fun e s hs => ?_
    · cases outcome with
      | some outcome => exact fun s ⟨steered, hbook, hflags⟩ => ⟨steered, hbook, fun _ _ => hflags _ rfl⟩
      | none => exact fun s ⟨steered, hbook, hflags⟩ => ⟨steered, hbook, fun _ _ => hflags _ rfl⟩
    · obtain ⟨steered, hbook, -⟩ := hs
      exact ⟨steered, hbook, nofun⟩
  | cons guard guards ih =>
    refine Ensures.bind (h guard List.mem_cons_self) (fun outcome => ?_) fun e s hs => .ofUnderway hs
    cases outcome with
    | some outcome => exact fun s hs => .ofUnderway hs
    | none => exact ih fun other hother => h other (List.mem_cons_of_mem guard hother)

theorem finalizeNoToolCalls_leaves (response : Response) :
    Ensures (Underway earlier syntheses {} false false) (finalizeNoToolCalls env texts options response)
      (Leaves earlier syntheses) := by
  have hguards := @firstOf_noCalls earlier syntheses
    [beside (phantomImageGate env texts response), beside (researchGates env texts response)] _
    (by
      simp only [List.forall_mem_cons]
      exact ⟨beside_underway (phantomImageGate_flags response), beside_underway (researchGates_flags response),
        List.forall_mem_nil _⟩)
    (@continueForSteering_noCalls env texts options _ _ response)
  refine Ensures.bind hguards (fun outcome => ?_) ?_
  rotate_left
  · rintro e s ⟨steered, hbook, -⟩
    exact NoCalls.leaves ⟨steered, hbook, fun _ h => by cases h⟩
  cases outcome with
  | some outcome =>
    rintro s ⟨steered, hbook, hflags⟩
    exact NoCalls.leaves ⟨steered, hbook, fun _ _ => hflags _ rfl⟩
  | none =>
    rintro s ⟨steered, hbook, -⟩
    have hfresh := fresh_empty steered
    have hdue : Keeps (fun s : World × Book => s.2 = ⟨{ steered := steered } :: earlier, syntheses⟩)
        (beside (forcedToolDue options)) := beside_book
    refine Ensures.bind hdue (fun due => ?_) (fun e s hs => ⟨_, hfresh.left hs fun h => by cases h⟩) s hbook
    cases due with
    | some name => exact completes_leaves hfresh beside_book
    | none => exact completes_leaves hfresh beside_book

theorem noToolCalls_leaves (response : Response) :
    Ensures (Underway earlier syntheses {} false false) (noToolCalls env texts options response)
      (Leaves earlier syntheses) := by
  have hguards : Keeps (Underway earlier syntheses {} false false) (firstOf [
      beside (tryContinueOnLength env texts options response),
      beside (tryMalformedToolCall env texts response), beside (tryDegradedOutput texts response),
      beside (tryNarrateRecovery env texts response), beside (tryFileWriteRecovery env texts options response)]) := by
    refine firstOf_keeps ?_
    simp only [List.forall_mem_cons]
    exact ⟨beside_underway (tryContinueOnLength_flags response), beside_underway (tryMalformedToolCall_flags response),
      beside_underway (tryDegradedOutput_flags response), beside_underway (tryNarrateRecovery_flags response),
      beside_underway (tryFileWriteRecovery_flags response), nofun⟩
  refine Ensures.bind hguards (fun recovered => ?_) fun e s hs => (NoCalls.ofUnderway hs).leaves
  cases recovered with
  | some outcome => exact fun s hs => (NoCalls.ofUnderway hs).leaves
  | none => exact finalizeNoToolCalls_leaves response

/-! ## One iteration -/

theorem handleRejectedToolCall_leaves (response : Response) (reason : String) :
    Ensures (Underway earlier syntheses {} false false)
      (beside (handleRejectedToolCall env texts options response reason)) (Leaves earlier syntheses) := by
  have hrejected : Ensures (Flags false false) (handleRejectedToolCall env texts options response reason)
      (fun r w => r = .ok .goOn → Flags false false w) := by
    refine Ensures.bind Keeps.ofLook (fun w => Ensures.ofIte (fun _ => ?_) fun _ => ?_) fun e w _ => nofun
    · refine Ensures.bind (noteNudges_flags _) (fun _ => ?_) fun e w _ => nofun
      exact (pushNudge_flags response _ _).mono (fun _ hw => hw) fun _ _ hw _ => hw
    · refine Ensures.bind (R := fun _ _ => True) (fun _ _ => trivial) (fun _ => ?_) fun e w _ => nofun
      exact Ensures.bind (R := fun _ _ => True) (fun _ _ => trivial) (fun _ w _ => nofun) fun e w _ => nofun
  intro s hs
  refine ⟨{}, hs.book, rfl, rfl, nofun, fun hr => ?_⟩
  have hflags := hrejected s.1 hs.flags hr
  exact ⟨⟨fun h => absurd (hflags.blocked.symm.trans h) nofun, fun h => absurd h not_blocked_empty⟩, hflags.steered⟩

/-- Whatever the flags were, after an iteration that goes on they are about its own pass. -/
theorem runIteration_leaves : Ensures (fun s : World × Book => s.2 = ⟨{} :: earlier, syntheses⟩)
    (runIteration env texts options) (Leaves earlier syntheses) := by
  have hstart : Ensures (fun s : World × Book => s.2 = ⟨{} :: earlier, syntheses⟩)
      (beside (startIteration texts)) (fun _ => Underway earlier syntheses {} false false) :=
    fun s hs => ⟨⟨rfl, rfl⟩, hs⟩
  refine Ensures.bind hstart (fun _ => ?_) fun e s hs => (NoCalls.ofUnderway hs).leaves
  refine Ensures.bind (beside_underway runModelCall_flags) (fun call => ?_) fun e s hs => (NoCalls.ofUnderway hs).leaves
  refine Ensures.bind (beside_underway Keeps.ofLook) (fun w => ?_) fun e s hs => (NoCalls.ofUnderway hs).leaves
  refine Ensures.bind (beside_underway (Keeps.ofUpdate fun w hw => ⟨hw.blocked, hw.steered⟩)) (fun _ => ?_)
    fun e s hs => (NoCalls.ofUnderway hs).leaves
  cases call.rejection with
  | some reason => exact handleRejectedToolCall_leaves _ reason
  | none =>
    refine Ensures.ofIte (fun _ => noToolCalls_leaves _) fun hcalls => withToolCalls_leaves call _ fun hnil => ?_
    rw [hnil] at hcalls
    exact hcalls rfl

end Kept

/-! ## The loop -/

/-- A pass that the loop went on from without taking it from the budget, all its calls blocked. -/
def Pass.free (p : Pass) : Bool := p.outcome == some .goOn && !p.spent && decide p.Blocked

/-- The passes that cost nothing are those continued for steering, and the first so many of those whose every call
was blocked. -/
def Priced (maxIterations : ℕ) (passes : List Pass) : Prop :=
  ∀ later p earlier, passes = later ++ p :: earlier → p.outcome = some .goOn →
    (p.spent = false ↔ p.steered = true ∨ p.Blocked ∧ earlier.countP (fun q => decide q.Blocked) < maxIterations)

theorem Priced.cons {max : ℕ} {passes : List Pass} (h : Priced max passes) (hp : p.outcome = some .goOn →
    (p.spent = false ↔ p.steered = true ∨ p.Blocked ∧ passes.countP (fun q => decide q.Blocked) < max)) :
    Priced max (p :: passes) := by
  intro later q earlier hsplit hq
  cases later with
  | nil =>
    obtain ⟨rfl, rfl⟩ := List.cons.inj hsplit
    exact hp hq
  | cons other later =>
    obtain ⟨-, hrest⟩ := List.cons.inj hsplit
    exact h later q earlier hrest hq

/-- Between two iterations. -/
structure Ongoing (max consumed freeRetries : ℕ) (book : Book) : Prop where
  goesOn : ∀ p ∈ book.passes, p.outcome = some .goOn
  syntheses : book.syntheses = []
  budget : consumed ≤ max
  spent : book.passes.countP Pass.spent = consumed
  free : book.passes.countP Pass.free = freeRetries
  retries : freeRetries = min max (book.passes.countP (fun p => decide p.Blocked))
  total : book.passes.length = consumed + freeRetries + book.passes.countP Pass.steered
  priced : Priced max book.passes

/-- What the book of a run says. -/
structure Bounded (max : ℕ) (r : Except Failure Ending) (book : Book) : Prop where
  passes : book.passes.length ≤ 2 * max + book.passes.countP Pass.steered
  spent : book.passes.countP Pass.spent ≤ max
  free : book.passes.countP Pass.free ≤ max
  priced : Priced max book.passes
  /-- Either the last pass completed the turn, or none did and the turn was wrapped up once, after all of them. -/
  ended : r = .ok .returned →
    (book.syntheses = [] ∧ ∃ p earlier, book.passes = p :: earlier ∧ p.outcome = some .complete) ∨
    ((∀ p ∈ book.passes, p.outcome ≠ some .complete) ∧ ∃ reason, book.syntheses = [(reason, book.passes.length)])
  atMostOnce : book.syntheses.length ≤ 1

theorem Ongoing.start (max : ℕ) : Ongoing max 0 0 {} :=
  ⟨nofun, rfl, Nat.zero_le max, rfl, rfl, by simp, rfl, fun later p earlier h => by simp at h⟩

/-- No pass more. -/
theorem Ongoing.stops {max consumed freeRetries : ℕ} {book : Book} {r : Except Failure Ending}
    {syntheses : List (StopReason × ℕ)} (h : Ongoing max consumed freeRetries book) (hlength : syntheses.length ≤ 1)
    (hended : r = .ok .returned → ∃ reason, syntheses = [(reason, book.passes.length)]) :
    Bounded max r ⟨book.passes, syntheses⟩ := by
  have hbudget := h.budget
  have hretries := h.retries
  refine ⟨?_, ?_, ?_, h.priced, fun hr => .inr ⟨fun p hp => ?_, hended hr⟩, hlength⟩
  · dsimp only
    rw [h.total]
    omega
  · dsimp only
    rw [h.spent]
    exact hbudget
  · dsimp only
    rw [h.free]
    omega
  · rw [h.goesOn p hp]
    nofun

theorem Ongoing.unfinished {max consumed freeRetries : ℕ} {book : Book} {r : Except Failure Ending}
    (h : Ongoing max consumed freeRetries book) (hr : r ≠ .ok .returned) : Bounded max r book := by
  have hstops := @Ongoing.stops _ _ _ _ r book.syntheses h (by rw [h.syntheses]; exact Nat.zero_le 1)
    fun heq => absurd heq hr
  exact hstops

/-- One pass more, from which the loop does not go on. -/
theorem Ongoing.last {max consumed freeRetries : ℕ} {book : Book} {r : Except Failure Ending}
    {syntheses : List (StopReason × ℕ)} (h : Ongoing max consumed freeRetries book) (hlt : consumed < max)
    (hgoOn : p.outcome ≠ some .goOn) (hspent : p.spent = false) (hlength : syntheses.length ≤ 1)
    (hended : r = .ok .returned → (syntheses = [] ∧ p.outcome = some .complete) ∨
      (p.outcome ≠ some .complete ∧ ∃ reason, syntheses = [(reason, book.passes.length + 1)])) :
    Bounded max r ⟨p :: book.passes, syntheses⟩ := by
  have hretries := h.retries
  have htotal := h.total
  have hfree : p.free = false := by
    unfold Pass.free
    simp [hgoOn]
  refine ⟨?_, ?_, ?_, h.priced.cons fun hp => absurd hp hgoOn, fun hr => ?_, hlength⟩
  · rw [List.length_cons, List.countP_cons]
    omega
  · rw [List.countP_cons, h.spent, hspent]
    simp only [Bool.false_eq_true, if_false]
    omega
  · rw [List.countP_cons, h.free, hfree]
    simp only [Bool.false_eq_true, if_false]
    omega
  · obtain ⟨hnone, hcomplete⟩ | ⟨hother, hwrapped⟩ := hended hr
    · exact .inl ⟨hnone, p, book.passes, rfl, hcomplete⟩
    · refine .inr ⟨List.forall_mem_cons.mpr ⟨hother, fun q hq => ?_⟩, hwrapped⟩
      rw [h.goesOn q hq]
      nofun

/-- One pass more, from which the loop goes on. -/
theorem Ongoing.next {max consumed freeRetries : ℕ} {book : Book} (h : Ongoing max consumed freeRetries book)
    (hgoOn : p.outcome = some .goOn) {consumed' freeRetries' : ℕ} (hbudget : consumed' ≤ max)
    (hspent : consumed' = consumed + if p.spent then 1 else 0)
    (hfree : freeRetries' = freeRetries + if p.free then 1 else 0)
    (hretries : freeRetries' = min max (book.passes.countP (fun q => decide q.Blocked) + if decide p.Blocked then 1 else 0))
    (htotal : consumed' + freeRetries' + (if p.steered then 1 else 0) = consumed + freeRetries + 1)
    (hpriced : p.spent = false ↔ p.steered = true ∨ p.Blocked ∧ freeRetries < max) :
    Ongoing max consumed' freeRetries' ⟨p :: book.passes, []⟩ := by
  refine ⟨List.forall_mem_cons.mpr ⟨hgoOn, h.goesOn⟩, rfl, hbudget, ?_, ?_, ?_, ?_, h.priced.cons fun _ => ?_⟩
  · rw [List.countP_cons, h.spent, hspent]
  · rw [List.countP_cons, h.free, hfree]
  · rw [List.countP_cons, hretries]
  · rw [List.length_cons, List.countP_cons, h.total]
    omega
  · rw [hpriced]
    have hcount := h.retries
    constructor
    · rintro (hsteered | ⟨hblocked, hlt⟩)
      · exact .inl hsteered
      · exact .inr ⟨hblocked, by omega⟩
    · rintro (hsteered | ⟨hblocked, hlt⟩)
      · exact .inl hsteered
      · exact .inr ⟨hblocked, by omega⟩

/-- A free retry. -/
theorem Ongoing.retried {max consumed freeRetries : ℕ} {book : Book} (h : Ongoing max consumed freeRetries book)
    (hgoOn : p.outcome = some .goOn) (hspent : p.spent = false) (hblocked : p.Blocked) (hsteered : p.steered = false)
    (hlt : freeRetries < max) : Ongoing max consumed (freeRetries + 1) ⟨p :: book.passes, []⟩ := by
  have hfree : p.free = true := by
    unfold Pass.free
    simp [hgoOn, hspent, hblocked]
  have hretries := h.retries
  refine h.next hgoOn h.budget ?_ ?_ ?_ ?_ ?_
  · simp [hspent]
  · simp [hfree]
  · simp only [hblocked, decide_true, if_true]
    omega
  · simp [hsteered]
    omega
  · simp [hspent, hblocked, hlt]

/-- Continued for steering. -/
theorem Ongoing.wentOn {max consumed freeRetries : ℕ} {book : Book} (h : Ongoing max consumed freeRetries book)
    (hgoOn : p.outcome = some .goOn) (hspent : p.spent = false) (hblocked : ¬ p.Blocked) (hsteered : p.steered = true) :
    Ongoing max consumed freeRetries ⟨p :: book.passes, []⟩ := by
  have hfree : p.free = false := by
    unfold Pass.free
    simp [hblocked]
  have hretries := h.retries
  refine h.next hgoOn h.budget ?_ ?_ ?_ ?_ ?_
  · simp [hspent]
  · simp [hfree]
  · simp only [hblocked, decide_false, Bool.false_eq_true, if_false]
    omega
  · simp [hsteered]
  · simp [hspent, hsteered]

/-- Taken from the budget. -/
theorem Ongoing.spend {max consumed freeRetries : ℕ} {book : Book} (h : Ongoing max consumed freeRetries book)
    (hgoOn : p.outcome = some .goOn) (hspent : p.spent = true) (hsteered : p.steered = false)
    (hretry : ¬ (p.Blocked ∧ freeRetries < max)) (hlt : consumed < max) :
    Ongoing max (consumed + 1) freeRetries ⟨p :: book.passes, []⟩ := by
  have hfree : p.free = false := by
    unfold Pass.free
    simp [hspent]
  have hretries := h.retries
  refine h.next hgoOn hlt ?_ ?_ ?_ ?_ ?_
  · simp [hspent]
  · simp [hfree]
  · split
    · rename_i hblocked
      have hfull : ¬ freeRetries < max := fun hlt => hretry ⟨of_decide_eq_true hblocked, hlt⟩
      omega
    · omega
  · simp [hsteered]
    omega
  · simp [hspent, hsteered, hretry]

namespace Kept

theorem wrapUp_wraps (reason : StopReason) (passes : List Pass) :
    Ensures (fun s : World × Book => s.2 = ⟨passes, []⟩) (wrapUp env texts options reason)
      (fun r s => r ≠ .ok .running ∧ s.2 = ⟨passes, [(reason, passes.length)]⟩) := by
  refine @Ensures.recording _ _ _ _ _ _ _ _ (fun s => s.2 = ⟨passes, [(reason, passes.length)]⟩) (fun w book hbook => ?_) ?_
  · change book.wrappedUp reason = _
    rw [show book = ⟨passes, []⟩ from hbook]
    rfl
  · refine Ensures.bind (R := fun _ s => s.2 = ⟨passes, [(reason, passes.length)]⟩) (fun _ hs => hs)
      (fun _ s hs => ⟨nofun, hs⟩) fun e s hs => ⟨nofun, hs⟩

/-- What is promised of a run once so many passes were made. -/
def Promised (options : AgentLoopOptions) (passes : ℕ) (r : Except Failure Ending) (s : World × Book) : Prop :=
  Bounded options.maxIterations r s.2 ∧ (r = .ok .running → s.2.passes.length = passes)

def Between (options : AgentLoopOptions) (consumed freeRetries made : ℕ) (s : World × Book) : Prop :=
  Ongoing options.maxIterations consumed freeRetries s.2 ∧ s.2.passes.length = made

/-- The loop goes on, and the pass is paid for. -/
theorem goOn_promised {fuel consumed freeRetries made : ℕ} {w : World} {book : Book} (hlt : consumed < options.maxIterations)
    (hongoing : Ongoing options.maxIterations consumed freeRetries book) (hmade : book.passes.length = made)
    (hspent : p.spent = false) (hexclusive : p.steered = true → ¬ p.Blocked)
    (hblocked : w.allWebReadsBlocked = true ↔ p.Blocked) (hsteered : w.steeringContinue = p.steered)
    (hrest : ∀ consumed freeRetries, Ensures (Between options consumed freeRetries (made + 1))
      (runLoop env texts options fuel consumed freeRetries) (Promised options (made + 1 + fuel))) :
    Ensures (fun t => t = (w, (⟨{ p with outcome := some .goOn } :: book.passes, []⟩ : Book))) (do
      let w ← beside look
      if w.allWebReadsBlocked && freeRetries < options.maxIterations then
        runLoop env texts options fuel consumed (freeRetries + 1)
      else if w.steeringContinue then runLoop env texts options fuel consumed freeRetries
      else do
        record (Book.amend (fun p => { p with spent := true }))
        runLoop env texts options fuel (consumed + 1) freeRetries)
      (Promised options (made + 1 + fuel)) := by
  have hlength (q : Pass) : (q :: book.passes).length = made + 1 := by rw [List.length_cons, hmade]
  have hretry : (w.allWebReadsBlocked && decide (freeRetries < options.maxIterations)) = true ↔
      p.Blocked ∧ freeRetries < options.maxIterations := by
    rw [Bool.and_eq_true, hblocked, decide_eq_true_iff]
  refine Ensures.bind (R := fun r t => r = .ok w ∧
    t = (w, (⟨{ p with outcome := some .goOn } :: book.passes, []⟩ : Book)))
    (fun t ht => ⟨congrArg (fun t : World × Book => (Except.ok t.1 : Except Failure World)) ht, ht⟩) (fun w => ?_)
    fun e t ht => nomatch ht.1
  refine Ensures.ofIte (fun hfree t ht => ?_) fun hfull => Ensures.ofIte (fun hsteer t ht => ?_) fun hsteer t ht => ?_
  · obtain ⟨hw, rfl⟩ := ht
    cases hw
    obtain ⟨hb, hf⟩ := hretry.mp hfree
    have hnot : p.steered = false := Bool.eq_false_iff.mpr fun hsteer => hexclusive hsteer hb
    exact hrest _ _ _ ⟨hongoing.retried rfl hspent hb hnot hf, hlength _⟩
  · obtain ⟨hw, rfl⟩ := ht
    cases hw
    rw [hsteered] at hsteer
    exact hrest _ _ _ ⟨hongoing.wentOn rfl hspent (hexclusive hsteer) hsteer, hlength _⟩
  · obtain ⟨hw, rfl⟩ := ht
    cases hw
    rw [hsteered] at hsteer
    have hnot : p.steered = false := Bool.eq_false_iff.mpr hsteer
    exact hrest _ _ _ ⟨hongoing.spend (p := { p with outcome := some .goOn, spent := true }) rfl rfl hnot
      (fun hb => hfull (hretry.mpr hb)) hlt, hlength _⟩

/-- A run that begins between two iterations, whatever the flags are. -/
theorem runLoop_promised (fuel consumed freeRetries made : ℕ) :
    Ensures (Between options consumed freeRetries made) (runLoop env texts options fuel consumed freeRetries)
      (Promised options (made + fuel)) := by
  induction fuel generalizing consumed freeRetries made with
  | zero =>
    intro s ⟨hongoing, hmade⟩
    refine ⟨hongoing.unfinished fun hr => ?_, fun _ => hmade⟩
    cases hr
  | succ fuel ih =>
    rw [show made + (fuel + 1) = made + 1 + fuel by omega]
    refine Ensures.ofIte (fun hlt => ?_) fun hge => ?_
    · refine Ensures.bind (R := fun _ => Between options consumed freeRetries made) (fun s hs => hs)
        (fun _ s hs => ?_) fun e s hs => ⟨hs.1.unfinished nofun, nofun⟩
      obtain ⟨hongoing, hmade⟩ := hs
      have hopened : s.2.opened = ⟨{} :: s.2.passes, []⟩ := by
        unfold Book.opened
        rw [hongoing.syntheses]
      refine Ensures.bind (S := Promised options (made + 1 + fuel))
        (@runIteration_leaves _ _ _ s.2.passes []) (fun outcome s' hs' => ?_) (fun e s' hs' => ?_)
        (s.1, s.2.opened) hopened
      · obtain ⟨p, hp⟩ := hs'
        have hbook : s'.2.amend (fun p => { p with outcome := some outcome }) =
            ⟨{ p with outcome := some outcome } :: s.2.passes, []⟩ := by
          rw [hp.book]
          rfl
        cases outcome with
        | complete =>
          refine ⟨?_, nofun⟩
          change Bounded _ _ (s'.2.amend _)
          rw [hbook]
          exact hongoing.last hlt nofun hp.spent (Nat.zero_le 1) fun _ => .inl ⟨rfl, rfl⟩
        | stop =>
          obtain ⟨hreturned, hwrapped⟩ := @wrapUp_wraps env texts options
            .forcedStop _ (s'.1, s'.2.amend _) hbook
          refine ⟨?_, fun hrunning => absurd hrunning hreturned⟩
          change Bounded _ _ (wrapUp env texts options .forcedStop (s'.1, s'.2.amend _)).2.2
          rw [hwrapped]
          exact hongoing.last hlt nofun hp.spent (le_refl 1) fun _ => .inr ⟨nofun, _, rfl⟩
        | goOn =>
          obtain ⟨hblocked, hsteered⟩ := hp.flags rfl
          exact goOn_promised hlt hongoing hmade hp.spent hp.exclusive hblocked hsteered
            (fun consumed freeRetries => ih consumed freeRetries (made + 1)) _ (by rw [← hbook])
      · obtain ⟨p, hp⟩ := hs'
        refine ⟨?_, nofun⟩
        rw [hp.book]
        exact hongoing.last hlt (by rw [hp.outcome]; nofun) hp.spent (Nat.zero_le 1) nofun
    · intro s ⟨hongoing, hmade⟩
      have hbook : s.2 = ⟨s.2.passes, []⟩ := by
        rw [← hongoing.syntheses]
      obtain ⟨hreturned, hwrapped⟩ := @wrapUp_wraps env texts options
        .maxIterations s.2.passes s hbook
      refine ⟨?_, fun hrunning => absurd hrunning hreturned⟩
      rw [hwrapped]
      exact hongoing.stops (le_refl 1) fun _ => ⟨_, rfl⟩

end Kept

end Haruspex.AgentLoop
