import Mathlib.Data.Nat.Notation

/-! What the relay (`remote/relay.rs`) holds of a turn, and the events it sends. -/
namespace Haruspex.Relay
set_option autoImplicit false

inductive TurnStatus where
  | waiting
  | running
  | done
  | failed
  | cancelled
  deriving DecidableEq

def TurnStatus.inFlight : TurnStatus → Bool
  | .waiting | .running => true
  | _ => false

inductive StepStatus where
  | running
  | done
  | failed
  deriving DecidableEq

structure Step where
  id : String
  label : String
  status : StepStatus
  deriving DecidableEq

structure QuestionOption where
  label : String
  description : Option String
  recommended : Bool
  deriving DecidableEq

structure Question where
  id : String
  question : String
  options : List QuestionOption
  allowMultiple : Bool
  deriving DecidableEq

structure Answer where
  questionId : String
  labels : List String
  text : Option String

inductive RemoteEvent where
  | snapshot (turnId : Option String) (text : String) (status : Option TurnStatus)
      (message : Option String) (steps : List Step) (question : Option Question)
  | delta (turnId text : String)
  | done (turnId text : String)
  | error (turnId message : String)
  | state (turnId : String) (status : TurnStatus)
  | step (turnId : String) (step : Step)
  | question (turnId : String) (question : Question)
  | questionCleared (turnId : String)
  deriving DecidableEq

inductive RelayError where
  | busy
  | tooManySessions
  | rateLimited
  | unknownTurn
  | badSessionId
  deriving DecidableEq

structure Turn where
  id : String
  text : String
  status : TurnStatus
  message : Option String
  steps : List Step
  question : Option Question
  deriving DecidableEq

/-- A turn that was just accepted. -/
def Turn.new (id : String) : Turn := ⟨id, "", .waiting, none, [], none⟩

end Haruspex.Relay

/-! The conversation a guest's browser keeps (`remote/client/app.js`). What is on the page besides the
bubbles is left out. -/
namespace Haruspex.Relay
set_option autoImplicit false

inductive Role where
  | user
  | assistant
  deriving DecidableEq

structure Bubble where
  role : Role
  text : String
  turnId : Option String
  pending : Bool
  steps : List Step
  question : Option Question
  failed : Bool
  deriving DecidableEq

structure Client where
  transcript : List Bubble
  currentTurn : Option String
  deriving DecidableEq

def transcriptLimit : ℕ := 50

namespace Client

/-- A page that was just opened. -/
def new : Client := ⟨[], none⟩

def saveTranscript (c : Client) : Client :=
  { c with transcript := c.transcript.drop (c.transcript.length - transcriptLimit) }

/-- A bubble for the turn there is, with nothing in it. -/
def emptyBubble (c : Client) : Bubble := ⟨.assistant, "", c.currentTurn, true, [], none, false⟩

/-- Writes to the assistant message being written, created if this is its first text. -/
def assistantSlot (c : Client) (write : Bubble → Bubble) : Client :=
  match c.transcript.getLast? with
  | some last =>
    if last.role = .assistant ∧ (last.turnId = c.currentTurn ∨ last.pending = true) then
      { c with transcript :=
          c.transcript.dropLast ++ [write { last with turnId := c.currentTurn }] }
    else { c with transcript := c.transcript ++ [write c.emptyBubble] }
  | none => { c with transcript := c.transcript ++ [write c.emptyBubble] }

/-- The slot of a turn, which becomes the current one. -/
def slotOf (c : Client) (turnId : String) (write : Bubble → Bubble) : Client :=
  { c with currentTurn := some turnId }.assistantSlot write

def putStep (steps : List Step) (step : Step) : List Step :=
  match steps.findIdx? (fun s => s.id = step.id) with
  | some i => steps.set i step
  | none => steps ++ [step]

/-- The message a failed turn is shown with, if there is one to show. -/
def failure (status : Option TurnStatus) (message : Option String) : Option String :=
  if status = some .failed then message.filter (fun m => m ≠ "") else none

/-- What a snapshot makes of a bubble. -/
def rewrite (text : String) (status : Option TurnStatus) (message : Option String)
    (steps : List Step) (question : Option Question) (slot : Bubble) : Bubble :=
  let slot := { slot with
    text := text
    steps := steps
    question := question
    pending := status = some .waiting ∨ status = some .running }
  match failure status message with
  | some m => { slot with text := m, failed := true }
  | none => slot

def handle (c : Client) (event : RemoteEvent) : Client :=
  match event with
  | .snapshot turnId text status message steps question =>
    match turnId.filter (fun id => id ≠ "") with
    | none => c
    | some id =>
      let c := c.slotOf id (rewrite text status message steps question)
      let pending := status = some .waiting ∨ status = some .running
      saveTranscript (if pending then c else { c with currentTurn := none })
  | .state turnId _ => c.slotOf turnId (fun slot => { slot with pending := true })
  | .step turnId step =>
    c.slotOf turnId (fun slot => { slot with steps := putStep slot.steps step, pending := true })
  | .question turnId question =>
    c.slotOf turnId (fun slot => { slot with question := some question, pending := false })
  | .questionCleared _ =>
    c.assistantSlot (fun slot => { slot with question := none, pending := true })
  | .delta turnId text =>
    c.slotOf turnId (fun slot => { slot with text := slot.text ++ text, pending := true })
  | .done turnId text =>
    let c := c.slotOf turnId (fun slot => { slot with text := text, pending := false })
    saveTranscript { c with currentTurn := none }
  | .error turnId message =>
    let shown := if message = "" then "Something went wrong." else message
    let c := c.slotOf turnId (fun slot =>
      { slot with text := shown, failed := true, pending := false })
    saveTranscript { c with currentTurn := none }

/-- The text shown for a turn: its last bubble's. -/
def shown (c : Client) (turnId : String) : Option String :=
  (c.transcript.reverse.find? (fun b => b.turnId = some turnId)).map Bubble.text

end Client

end Haruspex.Relay
