import Haruspex.AgentLoop.Loop

/-! Steering is neither lost nor delivered twice. -/
namespace Haruspex.AgentLoop
open Actions JavaScript
set_option autoImplicit false

/-! ## What is promised -/

/-- The steering that was appended to the conversation, in order. -/
def World.delivered (w : World) : List SteeringMessage := w.entries.filterMap Entry.steering?

/-- The steering that was given back to the caller, in order. -/
def World.handedBack (w : World) : List SteeringMessage :=
  w.completions.flatMap (fun completion => (completion.getD {}).undeliveredSteering)

/-- What was typed is, in order, what was delivered, what was given back, and what still waits. -/
def Accounted (w : World) : Prop :=
  w.typed.filter nonEmpty = w.delivered ++ w.handedBack ++ w.queue.filter nonEmpty

/-! ## Stages -/

/-- All is accounted for, and `onComplete` was called so many times. -/
structure Stage (n : ℕ) (w : World) : Prop where
  accounted : Accounted w
  completions : w.completions.length = n

/-- Before `onComplete`, with some steering taken from the queue and not yet appended. -/
structure Holding (steers : List SteeringMessage) (w : World) : Prop where
  accounted : w.typed.filter nonEmpty = w.delivered ++ steers ++ w.queue.filter nonEmpty
  completions : w.completions = []

theorem Stage.holding {w : World} (h : Stage 0 w) : Holding [] w := by
  have hnone := List.length_eq_zero_iff.mp h.completions
  refine ⟨?_, hnone⟩
  rw [h.accounted, World.handedBack, hnone]
  rfl

theorem Holding.stage {w : World} (h : Holding [] w) : Stage 0 w := by
  refine ⟨?_, by rw [h.completions]; rfl⟩
  rw [Accounted, h.accounted, World.handedBack, h.completions]
  rfl

variable {env : Env} {texts : Texts} {options : AgentLoopOptions} {n : ℕ} {T : Type}

/-- A change that the account does not show. -/
theorem Stage.keep {w w' : World} (h : Stage n w) (htyped : w'.typed = w.typed)
    (hqueue : w'.queue = w.queue) (hdelivered : w'.delivered = w.delivered)
    (hcompletions : w'.completions = w.completions) : Stage n w' := by
  refine ⟨?_, by rw [hcompletions, h.completions]⟩
  rw [Accounted, World.handedBack, htyped, hqueue, hdelivered, hcompletions]
  exact h.accounted

/-! ## Calling back and waiting -/

theorem tick_stage : Returns (Stage n) (tick env) (Stage n) := by
  intro w h
  refine ⟨⟨w.now, rfl⟩, ?_, h.completions⟩
  show (w.typed ++ env.typed w.now).filter nonEmpty =
    w.delivered ++ w.handedBack ++ (w.queue ++ env.typed w.now).filter nonEmpty
  rw [List.filter_append, List.filter_append, h.accounted, List.append_assoc]

theorem tick_holding {steers : List SteeringMessage} :
    Returns (Holding steers) (tick env) (Holding steers) := by
  intro w h
  refine ⟨⟨w.now, rfl⟩, ?_, h.completions⟩
  show (w.typed ++ env.typed w.now).filter nonEmpty =
    w.delivered ++ steers ++ (w.queue ++ env.typed w.now).filter nonEmpty
  rw [List.filter_append, List.filter_append, h.accounted, List.append_assoc]

theorem callback_stage : Returns (Stage n) (callback env) (Stage n) :=
  tick_stage.bind fun _ => Returns.ofPure fun _ h => h

theorem callback_holding {steers : List SteeringMessage} :
    Returns (Holding steers) (callback env) (Holding steers) :=
  tick_holding.bind fun _ => Returns.ofPure fun _ h => h

theorem callback_keeps : Keeps (Stage n) (callback env) := callback_stage.keeps

theorem ofExcept_keeps (outcome : Except Failure T) : Keeps (Stage n) (ofExcept outcome) := by
  cases outcome with
  | ok value => exact Keeps.ofPure
  | error e => exact Keeps.ofFail

theorem await_keeps (outcome : ℕ → Except Failure T) : Keeps (Stage n) (await env outcome) :=
  tick_stage.keeps.bind fun now => ofExcept_keeps (outcome now)

theorem checkAborted_keeps : Keeps (Stage n) (checkAborted env) :=
  Keeps.ofLook.bind fun _ => Keeps.ofIte (fun _ => Keeps.ofFail) (fun _ => Keeps.ofPure)

/-! ## Appending -/

/-- All but steering is appended without showing. -/
theorem appendMessage_stage {entry : Entry} (h : entry.steering? = none) :
    Returns (Stage n) (appendMessage env entry) (Stage n) := by
  refine Returns.bind (Returns.ofUpdate fun w hw => hw.keep rfl rfl ?_ rfl) fun _ => callback_stage
  show (w.entries ++ [entry]).filterMap Entry.steering? = w.delivered
  simp [World.delivered, h]

theorem appendMessage_keeps {entry : Entry} (h : entry.steering? = none) :
    Keeps (Stage n) (appendMessage env entry) := (appendMessage_stage h).keeps

theorem appendMessage_holds {entry : Entry} {steers : List SteeringMessage}
    (h : entry.steering? = none) :
    Returns (Holding steers) (appendMessage env entry) (Holding steers) := by
  refine Returns.bind (Returns.ofUpdate fun w hw => ⟨?_, hw.completions⟩) fun _ => callback_holding
  show w.typed.filter nonEmpty =
    (w.entries ++ [entry]).filterMap Entry.steering? ++ steers ++ w.queue.filter nonEmpty
  rw [hw.accounted]
  simp [World.delivered, h]

/-- The first message held is delivered. -/
theorem appendMessage_holding (m : SteeringMessage) (steers : List SteeringMessage) :
    Returns (Holding (m :: steers)) (appendMessage env (.steering m)) (Holding steers) := by
  refine Returns.bind (Returns.ofUpdate fun w hw => ⟨?_, hw.completions⟩) fun _ => callback_holding
  show w.typed.filter nonEmpty =
    (w.entries ++ [Entry.steering m]).filterMap Entry.steering? ++ steers ++ w.queue.filter nonEmpty
  rw [hw.accounted]
  simp [World.delivered, Entry.steering?]

theorem appendSteering_stage (steers : List SteeringMessage) :
    Returns (Holding steers) (appendSteering env texts steers) (Stage 0) := by
  refine (Returns.ofForEach appendMessage_holding steers).bind fun _ => ?_
  refine callback_holding.bind fun _ => ?_
  refine Returns.bind (Q := Stage 0) ?_ fun _ => Returns.ofUpdate fun w hw => hw.keep rfl rfl rfl rfl
  exact fun w hw => appendMessage_stage rfl w hw.stage

/-! ## Draining the queue -/

/-- What was taken from the queue is held. -/
def Taken (r : Except Failure (List SteeringMessage)) (w : World) : Prop :=
  ∃ pending, r = .ok pending ∧ Holding pending w

theorem queuedSteering_taken : Ensures (Stage 0) queuedSteering Taken := by
  intro w h
  refine ⟨w.queue.filter nonEmpty, rfl, ?_, h.holding.completions⟩
  show w.typed.filter nonEmpty = w.delivered ++ w.queue.filter nonEmpty ++ List.filter nonEmpty []
  rw [h.holding.accounted, List.append_nil, List.filter_nil, List.append_nil]

theorem takeQueuedSteering_taken : Ensures (Stage 0) (takeQueuedSteering options) Taken := by
  unfold takeQueuedSteering
  split
  · exact queuedSteering_taken
  · exact fun w h => ⟨[], rfl, h.holding⟩

/-- What comes after the queue was drained. -/
theorem Taken.bind {next : List SteeringMessage → Turn T} {Q : Except Failure T → World → Prop}
    {act : Turn (List SteeringMessage)} (hact : Ensures (Stage 0) act Taken)
    (hnext : ∀ pending, Ensures (Holding pending) (next pending) Q) :
    Ensures (Stage 0) (act >>= next) Q := by
  refine Ensures.bind hact (fun pending => ?_) ?_
  · intro w h
    obtain ⟨taken, htaken, hw⟩ := h
    cases htaken
    exact hnext pending w hw
  · intro e w h
    obtain ⟨taken, htaken, -⟩ := h
    exact nomatch htaken

theorem deliverSteering_keeps : Keeps (Stage 0) (deliverSteering env texts options) := by
  refine Taken.bind takeQueuedSteering_taken fun steers => ?_
  split
  · exact (appendSteering_stage steers).mono (fun _ h => h) fun _ _ h => h.2
  · have hnone : steers = [] := by simpa using ‹¬ 0 < steers.length›
    subst hnone
    exact fun w h => h.stage

/-! ## Calling `onComplete` -/

/-- `onComplete` was called so often, by what came out, and not at all in case of failure. -/
def Called (calls : T → ℕ) : Except Failure T → World → Prop
  | .ok a, w => Stage (calls a) w
  | .error _, w => Stage 0 w

theorem complete_stage (completion : Option CompletionMeta) :
    Returns (Holding (completion.getD {}).undeliveredSteering) (complete env completion) (Stage 1) := by
  refine Returns.bind (Returns.ofUpdate fun w hw => ⟨?_, ?_⟩) fun _ => callback_stage
  · show w.typed.filter nonEmpty = w.delivered ++
      (w.completions ++ [completion]).flatMap (fun c => (c.getD {}).undeliveredSteering) ++
      w.queue.filter nonEmpty
    rw [hw.completions, hw.accounted]
    simp
  · show (w.completions ++ [completion]).length = 1
    rw [hw.completions]
    rfl

/-- Whatever is in the queue is given back. -/
theorem onComplete_called {completion : Option CompletionMeta}
    (hnone : (completion.getD {}).undeliveredSteering = []) :
    Ensures (Stage 0) (onComplete env options completion) (Called fun _ => 1) := by
  refine Taken.bind takeQueuedSteering_taken fun left => ?_
  have hgiven : (Option.getD (if left.length > 0 then
      some { completion.getD {} with undeliveredSteering := left } else completion)
      {}).undeliveredSteering = left := by
    split
    · rfl
    · have hempty : left = [] := by simpa using ‹¬ left.length > 0›
      rw [hnone, hempty]
  intro w h
  have hcompleted := @complete_stage env _ w (hgiven.symm ▸ h)
  obtain ⟨⟨a, ha⟩, hw⟩ := hcompleted
  rw [ha]
  exact hw

namespace Called

variable {U : Type} {calls : T → ℕ} {calls' : U → ℕ} {act : Turn T} {next : T → Turn U}

theorem ofPure {a : T} (h : calls a = n) : Ensures (Stage n) (pure a : Turn T) (Called calls) := by
  intro w hw
  show Stage (calls a) w
  rw [h]
  exact hw

theorem ofFail {e : Failure} : Ensures (Stage 0) (fail e : Turn T) (Called calls) := fun _ hw => hw

theorem ofKeeps (hact : Keeps (Stage 0) act) (h : ∀ a, calls a = 0) :
    Ensures (Stage 0) act (Called calls) := by
  refine hact.mono (fun _ hw => hw) fun r w hw => ?_
  cases r with
  | ok a =>
    show Stage (calls a) w
    rw [h a]
    exact hw
  | error e => exact hw

theorem bind (hact : Ensures (Stage 0) act (Called calls))
    (hnext : ∀ a, Ensures (Stage (calls a)) (next a) (Called calls')) :
    Ensures (Stage 0) (act >>= next) (Called calls') :=
  Ensures.bind hact hnext (fun _ _ hw => hw)

/-- What comes before `onComplete`. -/
theorem after (hact : Keeps (Stage 0) act) (hnext : ∀ a, Ensures (Stage 0) (next a) (Called calls')) :
    Ensures (Stage 0) (act >>= next) (Called calls') :=
  Ensures.bind hact hnext (fun _ _ hw => hw)

end Called

theorem onError_called (message : String) :
    Ensures (Stage 1) (onError env message) (Called fun _ => 1) := by
  have hreturns : Returns (Stage 1) (onError env message) (Stage 1) :=
    Returns.bind (Returns.ofUpdate fun w hw => hw.keep rfl rfl rfl rfl) fun _ => callback_stage
  intro w h
  obtain ⟨⟨a, ha⟩, hw⟩ := hreturns w h
  rw [ha]
  exact hw

def IterationOutcome.calls : IterationOutcome → ℕ
  | .complete => 1
  | .goOn | .stop => 0

/-- By a guard, which may leave the response to the next. -/
def guardCalls : Option IterationOutcome → ℕ
  | some outcome => outcome.calls
  | none => 0

theorem continueForSteering_called (response : Response) :
    Ensures (Stage 0) (continueForSteering env texts options response) (Called guardCalls) := by
  refine Taken.bind takeQueuedSteering_taken fun pending => ?_
  split
  · have hnone : pending = [] := List.length_eq_zero_iff.mp ‹_›
    subst hnone
    exact fun w h => h.stage
  · have hrest : Ensures (Holding pending) (do
        appendSteering env texts pending
        update (fun w => { w with steeringContinue := true })
        pure (some IterationOutcome.goOn)) (Called guardCalls) := by
      refine (appendSteering_stage pending).thenEnsures fun _ => ?_
      refine Called.after (Keeps.ofUpdate fun w hw => hw.keep rfl rfl rfl rfl) fun _ => ?_
      exact Called.ofPure rfl
    refine Ensures.ofIte (fun _ => ?_) fun _ => hrest
    refine callback_holding.thenEnsures fun _ => ?_
    exact (appendMessage_holds rfl).thenEnsures fun _ => hrest

end Haruspex.AgentLoop
