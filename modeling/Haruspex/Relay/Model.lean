import Haruspex.Library.KeyedMap
import Haruspex.Relay.Client
import Haruspex.Rust.Text

/-! The broker between HTTP clients and the webview (`remote/relay.rs`). Every operation runs under one
lock, so each is a function of what the lock holds. An instant is the nanoseconds of the clock. -/
namespace Haruspex.Relay
open KeyedMap Rust
set_option autoImplicit false

/-! ## Constants -/

def channelCapacity : ℕ := 256

def maxSessions : ℕ := 8

def maxTurnsPerMinute : ℕ := 20

def seconds (n : ℕ) : ℕ := n * 1000000000

def orphanGrace : ℕ := seconds 90

def idleTimeout : ℕ := seconds (15 * 60)

def maxSteps : ℕ := 20

def maxSessionIdLen : ℕ := 64

def maxLabelLen : ℕ := 40

/-! ## Sessions -/

/-- A broadcast channel: which it is, and all it was ever sent. What of that a receiver can still read
is the receiver's matter. -/
structure Channel where
  name : ℕ
  sent : List RemoteEvent
  deriving DecidableEq

def Channel.send (tx : Channel) (event : RemoteEvent) : Channel :=
  { tx with sent := tx.sent ++ [event] }

/-- A receiver, by the place of the next event it reads. -/
structure Receiver where
  channel : ℕ
  next : ℕ
  deriving DecidableEq

structure Session where
  tx : Channel
  turn : Option Turn
  subscribers : ℕ
  lastSeen : ℕ
  deriving DecidableEq

namespace Session

def new (channel now : ℕ) : Session := ⟨⟨channel, []⟩, none, 0, now⟩

def inFlight (s : Session) : Bool := s.turn.any (fun t => t.status.inFlight)

def snapshot (s : Session) : RemoteEvent :=
  match s.turn with
  | some t => .snapshot (some t.id) t.text (some t.status) t.message t.steps t.question
  | none => .snapshot none "" none none [] none

def send (s : Session) (event : RemoteEvent) : Session := { s with tx := s.tx.send event }

/-! What each operation makes of the session of its turn. -/

def beginTurn (turnId : String) (now : ℕ) (s : Session) : Session :=
  { s with lastSeen := now, turn := some (Turn.new turnId) }.send (.state turnId .waiting)

def pushText (turnId fullText : String) (s : Session) (turn : Turn) : Session :=
  if fullText = turn.text then s
  else
    match stripPrefix fullText turn.text with
    | some suffix =>
      let status := if turn.status = .waiting then .running else turn.status
      { s with turn := some { turn with text := fullText, status := status } }.send
        (.delta turnId suffix)
    | none =>
      let s := { s with turn := some { turn with text := fullText } }
      s.send s.snapshot

/-- A repeated id updates that step in place. -/
def noteStep (steps : List Step) (step : Step) : List Step :=
  match steps.findIdx? (fun s => s.id = step.id) with
  | some i => steps.set i step
  | none => if steps.length < maxSteps then steps ++ [step] else steps

def pushStep (turnId : String) (step : Step) (s : Session) (turn : Turn) : Session :=
  { s with turn := some { turn with steps := noteStep turn.steps step } }.send (.step turnId step)

def ask (turnId : String) (question : Question) (s : Session) (turn : Turn) : Session :=
  { s with turn := some { turn with question := some question } }.send (.question turnId question)

def clearQuestion (turnId : String) (s : Session) (turn : Turn) : Session :=
  { s with turn := some { turn with question := none } }.send (.questionCleared turnId)

def setStatus (turnId : String) (status : TurnStatus) (s : Session) (turn : Turn) : Session :=
  { s with turn := some { turn with status := status } }.send (.state turnId status)

def terminate (turnId : String) (status : TurnStatus) (text : String) (message : Option String)
    (now : ℕ) (s : Session) (turn : Turn) : Session :=
  let turn := { turn with
    status := status
    message := message
    text := if status = .done then text else turn.text }
  { s with turn := some turn, lastSeen := now }.send
    (match status, message with
    | .done, _ => .done turnId text
    | _, some message => .error turnId message
    | _, none => .state turnId status)

end Session

structure Inner where
  sessions : Dict String Session
  /-- turn id -> session id -/
  turns : Dict String String
  recentTurns : List ℕ
  /-- The relay's own count of turns. -/
  counter : ℕ
  /-- How many channels were made. -/
  channels : ℕ

def Inner.new : Inner := ⟨∅, ∅, [], 0, 0⟩

structure PromptRequest where
  sessionId : String
  turnId : String
  message : String
  clientLabel : Option String
  deriving DecidableEq

def validSessionId (id : String) : Bool :=
  !id.toList.isEmpty && id.utf8ByteSize ≤ maxSessionIdLen &&
    id.toList.all (fun c => c.isAlphanum || c = '-' || c = '_')

def sanitiseLabel (label : String) : Option String :=
  let cleaned := trim (label.toList.map (fun c => if isControl c then ' ' else c))
  if cleaned.isEmpty then none else some (String.ofList (trim (cleaned.take maxLabelLen)))

namespace Inner

/-- Another session than those there are is one too many. -/
def full (inner : Inner) (sessionId : String) : Bool :=
  (inner.sessions.lookup sessionId).isNone && maxSessions ≤ inner.sessions.keys.length

/-- The session of this id, a new one if there is none. -/
def entry (inner : Inner) (sessionId : String) (now : ℕ) : Session × Inner :=
  match inner.sessions.lookup sessionId with
  | some session => (session, inner)
  | none =>
    let session := Session.new inner.channels now
    (session, { inner with
      sessions := inner.sessions.insert sessionId session
      channels := inner.channels + 1 })

def put (inner : Inner) (sessionId : String) (session : Session) : Inner :=
  { inner with sessions := inner.sessions.insert sessionId session }

/-! ## Listeners -/

def subscribe (inner : Inner) (sessionId : String) (now : ℕ) :
    Except RelayError (Receiver × RemoteEvent) × Inner :=
  if !validSessionId sessionId then (.error .badSessionId, inner)
  else if inner.full sessionId then (.error .tooManySessions, inner)
  else
    let (session, inner) := inner.entry sessionId now
    let session := { session with subscribers := session.subscribers + 1, lastSeen := now }
    (.ok (⟨session.tx.name, session.tx.sent.length⟩, session.snapshot), inner.put sessionId session)

def unsubscribe (inner : Inner) (sessionId : String) (now : ℕ) : Inner :=
  match inner.sessions.lookup sessionId with
  | some session =>
    inner.put sessionId { session with subscribers := session.subscribers - 1, lastSeen := now }
  | none => inner

/-! ## Turns -/

def turnId (sessionId : String) (count : ℕ) : String := sessionId ++ "#" ++ toString count

def beginTurn (inner : Inner) (sessionId message : String) (clientLabel : Option String) (now : ℕ) :
    Except RelayError PromptRequest × Inner :=
  if !validSessionId sessionId then (.error .badSessionId, inner)
  else
    let inner := { inner with
      recentTurns := inner.recentTurns.filter (fun t => now - t < seconds 60) }
    if maxTurnsPerMinute ≤ inner.recentTurns.length then (.error .rateLimited, inner)
    else if inner.full sessionId then (.error .tooManySessions, inner)
    else
      let id := turnId sessionId inner.counter
      let inner := { inner with counter := inner.counter + 1 }
      let (session, inner) := inner.entry sessionId now
      if session.inFlight then (.error .busy, inner)
      else
        let inner := inner.put sessionId (session.beginTurn id now)
        (.ok ⟨sessionId, id, message, clientLabel.bind sanitiseLabel⟩, { inner with
          recentTurns := inner.recentTurns ++ [now]
          turns := inner.turns.insert id sessionId })

/-- The live turn behind an id, with its session. -/
def turnMut (inner : Inner) (turnId : String) : Except RelayError (String × Session × Turn) :=
  match inner.turns.lookup turnId with
  | none => .error .unknownTurn
  | some sessionId =>
    match inner.sessions.lookup sessionId with
    | none => .error .unknownTurn
    | some session =>
      match session.turn with
      | some turn => if turn.id = turnId then .ok (sessionId, session, turn) else .error .unknownTurn
      | none => .error .unknownTurn

/-- A change of a live turn, and what is sent of it. -/
def change (inner : Inner) (turnId : String) (f : Session → Turn → Session) :
    Except RelayError Unit × Inner :=
  match inner.turnMut turnId with
  | .error e => (.error e, inner)
  | .ok (sessionId, session, turn) => (.ok (), inner.put sessionId (f session turn))

def pushText (inner : Inner) (turnId fullText : String) : Except RelayError Unit × Inner :=
  inner.change turnId (Session.pushText turnId fullText)

def pushStep (inner : Inner) (turnId : String) (step : Step) : Except RelayError Unit × Inner :=
  inner.change turnId (Session.pushStep turnId step)

def ask (inner : Inner) (turnId : String) (question : Question) : Except RelayError Unit × Inner :=
  inner.change turnId (Session.ask turnId question)

def answer (inner : Inner) (sessionId : String) (answer : Answer) :
    Except RelayError String × Inner :=
  match inner.sessions.lookup sessionId with
  | none => (.error .unknownTurn, inner)
  | some session =>
    match session.turn with
    | none => (.error .unknownTurn, inner)
    | some turn =>
      match turn.question with
      | none => (.error .unknownTurn, inner)
      | some pending =>
        if pending.id ≠ answer.questionId then (.error .unknownTurn, inner)
        else
          (.ok turn.id, inner.put sessionId (Session.clearQuestion turn.id session turn))

def clearQuestion (inner : Inner) (turnId : String) : Except RelayError Unit × Inner :=
  inner.change turnId (Session.clearQuestion turnId)

def setStatus (inner : Inner) (turnId : String) (status : TurnStatus) :
    Except RelayError Unit × Inner :=
  inner.change turnId (Session.setStatus turnId status)

def terminate (inner : Inner) (turnId : String) (status : TurnStatus) (text : String)
    (message : Option String) (now : ℕ) : Except RelayError Unit × Inner :=
  let retired := { inner with turns := inner.turns.erase turnId }
  match inner.turnMut turnId with
  | .error e => (.error e, retired)
  | .ok (sessionId, session, turn) =>
    (.ok (), retired.put sessionId (Session.terminate turnId status text message now session turn))

def finish (inner : Inner) (turnId text : String) (now : ℕ) : Except RelayError Unit × Inner :=
  inner.terminate turnId .done text none now

def fail (inner : Inner) (turnId message : String) (now : ℕ) : Except RelayError Unit × Inner :=
  inner.terminate turnId .failed "" (some message) now

/-! ## Sessions that go -/

/-- A turn nobody listens to any more. -/
def orphan (now : ℕ) (session : Session) : Option String :=
  if session.subscribers = 0 ∧ session.inFlight ∧ orphanGrace < now - session.lastSeen then
    session.turn.map Turn.id
  else none

def reap (inner : Inner) (now : ℕ) : List String × Inner :=
  let orphaned := inner.sessions.entries.filterMap (fun e => orphan now e.2)
  let seen := mapValues
    (fun session => if 0 < session.subscribers then { session with lastSeen := now } else session)
    inner.sessions
  let sessions := keep
    (fun _ session => 0 < session.subscribers || now - session.lastSeen ≤ idleTimeout) seen
  (orphaned, { inner with
    sessions := sessions
    turns := keep (fun _ sessionId => (sessions.lookup sessionId).isSome) inner.turns })

def disconnect (inner : Inner) (sessionId : String) : Option String × Inner :=
  match inner.sessions.lookup sessionId with
  | none => (none, inner)
  | some session =>
    ((session.turn.filter (fun t => t.status.inFlight)).map Turn.id, { inner with
      sessions := inner.sessions.erase sessionId
      turns := keep (fun _ id => id ≠ sessionId) inner.turns })

def clear (inner : Inner) : Inner := { inner with sessions := ∅, turns := ∅ }

end Inner

/-! ## Calls -/

/-- A call of the relay other than those its listeners make. -/
inductive Call where
  | beginTurn (sessionId message : String) (clientLabel : Option String) (now : ℕ)
  | pushText (turnId fullText : String)
  | pushStep (turnId : String) (step : Step)
  | ask (turnId : String) (question : Question)
  | answer (sessionId : String) (answer : Answer)
  | clearQuestion (turnId : String)
  /-- The host only ever sets a turn waiting or running. -/
  | setStatus (turnId : String) (status : { s : TurnStatus // s.inFlight = true })
  | finish (turnId text : String) (now : ℕ)
  | fail (turnId message : String) (now : ℕ)
  | reap (now : ℕ)
  | disconnect (sessionId : String)
  | clear

def Call.apply (call : Call) (inner : Inner) : Inner :=
  match call with
  | .beginTurn sessionId message clientLabel now =>
    (inner.beginTurn sessionId message clientLabel now).2
  | .pushText turnId fullText => (inner.pushText turnId fullText).2
  | .pushStep turnId step => (inner.pushStep turnId step).2
  | .ask turnId question => (inner.ask turnId question).2
  | .answer sessionId reply => (inner.answer sessionId reply).2
  | .clearQuestion turnId => (inner.clearQuestion turnId).2
  | .setStatus turnId status => (inner.setStatus turnId status).2
  | .finish turnId text now => (inner.finish turnId text now).2
  | .fail turnId message now => (inner.fail turnId message now).2
  | .reap now => (inner.reap now).2
  | .disconnect sessionId => (inner.disconnect sessionId).2
  | .clear => inner.clear

end Haruspex.Relay
