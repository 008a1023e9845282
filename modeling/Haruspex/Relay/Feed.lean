import Haruspex.Relay.LifeCycle
import Haruspex.Relay.Screen

/-! What the relay sends of one session: event by event, it leads from nothing to what there is to show
of the session's turn. -/
namespace Haruspex.Relay
open KeyedMap Replicas
set_option autoImplicit false

/-! ## One session -/

namespace Session

/-- A session goes on from one state to another by sending these events. -/
structure Moves (s s' : Session) (events : List RemoteEvent) : Prop where
  tx : s'.tx = { s.tx with sent := s.tx.sent ++ events }
  view : Follows follow (s.turn.map Turn.view) events (s'.turn.map Turn.view)
  turn : ∀ turn', s'.turn = some turn' → turn'.message ≠ some "" ∧
    ∃ turn, s.turn = some turn ∧ turn'.id = turn.id

variable {s : Session} {turn turn' : Turn}

theorem moves_send {s' : Session} {event : RemoteEvent} (hturn : s.turn = some turn)
    (hturn' : s'.turn = some turn') (htx : s'.tx = s.tx.send event) (hid : turn'.id = turn.id)
    (hmessage : turn'.message ≠ some "")
    (hfollow : follow (some turn.view) event = some (some turn'.view)) : Moves s s' [event] := by
  refine ⟨htx, ?_, fun other hother => ?_⟩
  · rw [hturn, hturn', follows_one]
    exact hfollow
  · obtain rfl := Option.some.inj (hturn'.symm.trans hother)
    exact ⟨hmessage, turn, hturn, hid⟩

theorem says_live (h : turn.status.inFlight = true) : turn.says = turn.text := by
  obtain ⟨id, text, status, message, steps, question⟩ := turn
  cases status with
  | waiting => rfl
  | running => rfl
  | done => cases h
  | failed => cases h
  | cancelled => cases h

theorem view_live (h : turn.status.inFlight = true) : turn.view = ⟨turn.id, turn.text, true⟩ := by
  rw [Turn.view, says_live h, h]

/-- The text a snapshot is shown with is what its turn says. -/
theorem follow_snapshot (v : Option View) (hturn : s.turn = some turn) (hid : turn.id ≠ "")
    (hmessage : turn.message ≠ some "") : follow v s.snapshot = some (some turn.view) := by
  obtain ⟨id, text, status, message, steps, question⟩ := turn
  rw [snapshot, hturn]
  unfold follow
  dsimp only
  rw [if_neg hid]
  cases status with
  | failed =>
    cases message with
    | none => rfl
    | some m =>
      have hm : m ≠ "" := fun h => hmessage (congrArg some h)
      simp [Client.failure, Turn.view, Turn.says, TurnStatus.inFlight, Option.filter_some, hm]
  | waiting => rfl
  | running => rfl
  | done => rfl
  | cancelled => rfl

theorem pushText_moves (fullText : String) (hturn : s.turn = some turn)
    (hlive : turn.status.inFlight = true) (hid : turn.id ≠ "") (hmessage : turn.message ≠ some "") :
    ∃ events, Moves s (s.pushText turn.id fullText turn) events := by
  unfold Session.pushText
  split
  · refine ⟨[], ?_, follows_nil.mpr rfl, fun turn' h => ?_⟩
    · rw [List.append_nil]
    · obtain rfl := Option.some.inj (hturn.symm.trans h)
      exact ⟨hmessage, turn, hturn, rfl⟩
  · split
    · rename_i suffix hsuffix
      refine ⟨_, moves_send hturn rfl rfl rfl hmessage ?_⟩
      have hflight : (if turn.status = .waiting then .running else turn.status).inFlight = true := by
        split
        · rfl
        · exact hlive
      rw [view_live hlive, view_live hflight, Rust.eq_append_of_stripPrefix hsuffix]
      simp [follow, ofLive]
    · refine ⟨_, moves_send hturn rfl rfl rfl hmessage ?_⟩
      exact follow_snapshot _ rfl hid hmessage

/-- Something of a live turn that does not change its text. -/
theorem quiet_moves {s' : Session} {event : RemoteEvent} (hturn : s.turn = some turn)
    (hturn' : s'.turn = some turn') (htx : s'.tx = s.tx.send event) (hid : turn'.id = turn.id)
    (htext : turn'.text = turn.text) (hlive : turn.status.inFlight = true)
    (hlive' : turn'.status.inFlight = true) (hmessage : turn'.message ≠ some "")
    (hfollow : ∀ text, follow (some ⟨turn.id, text, true⟩) event =
      some (some ⟨turn.id, text, true⟩)) : Moves s s' [event] := by
  refine moves_send hturn hturn' htx hid hmessage ?_
  rw [view_live hlive, view_live hlive', hid, htext]
  exact hfollow turn.text

theorem clearQuestion_moves (hturn : s.turn = some turn) (hmessage : turn.message ≠ some "") :
    Moves s (s.clearQuestion turn.id turn) [.questionCleared turn.id] :=
  moves_send hturn rfl rfl rfl hmessage rfl

theorem terminate_moves (text message : String) (now : ℕ) (hturn : s.turn = some turn)
    (hlive : turn.status.inFlight = true) :
    Moves s (s.terminate turn.id .done text none now turn) [.done turn.id text] ∧
      (message ≠ "" → Moves s (s.terminate turn.id .failed "" (some message) now turn)
        [.error turn.id message]) := by
  constructor
  · refine moves_send hturn rfl rfl rfl nofun ?_
    rw [view_live hlive]
    simp [follow, ofLive, Turn.view, Turn.says, TurnStatus.inFlight]
  · intro hmessage
    refine moves_send hturn rfl rfl rfl (by simpa using hmessage) ?_
    rw [view_live hlive]
    simp [follow, ofLive, Turn.view, Turn.says, TurnStatus.inFlight, hmessage]

end Session

/-! ## The session among the others -/

namespace Inner

variable {inner : Inner} {sessionId : String}

/-- All that was sent in a session. -/
def sentOf (inner : Inner) (sessionId : String) : List RemoteEvent :=
  ((inner.sessions.lookup sessionId).map (fun s => s.tx.sent)).getD []

/-- What there is to show in a session. -/
def viewOf (inner : Inner) (sessionId : String) : Option View :=
  (inner.turnOf sessionId).map Turn.view

/-- The turn of a session was counted, and did not fail without a message. -/
def Fit (inner : Inner) (sessionId : String) : Prop :=
  ∀ turn, inner.turnOf sessionId = some turn →
    turn.message ≠ some "" ∧ ∃ n < inner.counter, turn.id = turnId sessionId n

/-- The relay goes on from one state to another by sending these events in a session. -/
structure Goes (inner inner' : Inner) (sessionId : String) (events : List RemoteEvent) : Prop where
  sent : inner'.sentOf sessionId = inner.sentOf sessionId ++ events
  view : Follows follow (inner.viewOf sessionId) events (inner'.viewOf sessionId)
  fit : inner'.Fit sessionId
  stays : ∀ session, inner.sessions.lookup sessionId = some session →
    ∃ session', inner'.sessions.lookup sessionId = some session' ∧
      session'.tx.name = session.tx.name

theorem sentOf_of_lookup {session : Session} (h : inner.sessions.lookup sessionId = some session) :
    inner.sentOf sessionId = session.tx.sent := by
  rw [sentOf, h]
  rfl

theorem viewOf_of_lookup {session : Session} (h : inner.sessions.lookup sessionId = some session) :
    inner.viewOf sessionId = session.turn.map Turn.view := by
  rw [viewOf, turnOf, h]
  rfl

theorem turnId_ne_empty (sessionId : String) (n : ℕ) : turnId sessionId n ≠ "" := by
  intro h
  have hlist := congrArg String.toList h
  simp [turnId] at hlist

theorem turnId_inj {m n : ℕ} (h : turnId sessionId m = turnId sessionId n) : m = n := by
  have hrepr : m.repr = n.repr := String.append_right_inj _ |>.mp h
  rw [Nat.repr_eq_ofList_toDigits, Nat.repr_eq_ofList_toDigits] at hrepr
  have hdigits := congrArg String.toList hrepr
  rw [String.toList_ofList, String.toList_ofList] at hdigits
  rw [← Nat.ofDigitChars_ten_toDigits (n := m), hdigits, Nat.ofDigitChars_ten_toDigits]

/-- Nothing is sent where the session is as it was. -/
theorem goes_same {inner' : Inner} (hfit : inner.Fit sessionId)
    (hlookup : inner'.sessions.lookup sessionId = inner.sessions.lookup sessionId)
    (hcounter : inner.counter ≤ inner'.counter) : Goes inner inner' sessionId [] := by
  have hof : inner'.turnOf sessionId = inner.turnOf sessionId := by rw [turnOf, turnOf, hlookup]
  refine ⟨?_, ?_, fun turn hturn => ?_, fun session hsession => ?_⟩
  · rw [sentOf, sentOf, hlookup, List.append_nil]
  · rw [viewOf, viewOf, hof, follows_nil]
  · rw [hof] at hturn
    obtain ⟨hmessage, n, hn, hid⟩ := hfit turn hturn
    exact ⟨hmessage, n, by omega, hid⟩
  · exact ⟨session, hlookup.trans hsession, rfl⟩

/-- A session that moves on is put back. -/
theorem goes_put {inner' : Inner} (hfit : inner.Fit sessionId) {session session' : Session}
    {events : List RemoteEvent} (hsession : inner.sessions.lookup sessionId = some session)
    (hmoves : session.Moves session' events)
    (hlookup : inner'.sessions.lookup sessionId = some session')
    (hcounter : inner.counter ≤ inner'.counter) : Goes inner inner' sessionId events := by
  refine ⟨?_, ?_, fun turn' hturn' => ?_, fun other hother => ?_⟩
  · rw [sentOf_of_lookup hlookup, sentOf_of_lookup hsession, hmoves.tx]
  · rw [viewOf_of_lookup hlookup, viewOf_of_lookup hsession]
    exact hmoves.view
  · rw [turnOf, hlookup, Option.bind_some] at hturn'
    obtain ⟨hmessage, turn, hturn, hsame⟩ := hmoves.turn turn' hturn'
    obtain ⟨-, n, hn, hid⟩ := hfit turn (by rw [turnOf, hsession]; exact hturn)
    exact ⟨hmessage, n, by omega, hsame.trans hid⟩
  · obtain rfl := Option.some.inj (hsession.symm.trans hother)
    exact ⟨session', hlookup, by rw [hmoves.tx]⟩

/-! ## Each call -/

/-- A change of a live turn, wherever the turn is. -/
theorem change_goes (h : inner.Sound) (hfit : inner.Fit sessionId) (turnId : String)
    {f : Session → Turn → Session}
    (hf : ∀ (session : Session) (turn : Turn), session.turn = some turn → turn.id = turnId →
      turn.status.inFlight = true → turn.id ≠ "" → turn.message ≠ some "" →
        ∃ events, session.Moves (f session turn) events) :
    ∃ events, Goes inner (inner.change turnId f).2 sessionId events := by
  rcases change_cases inner turnId f with ⟨e, -, hchange⟩ | ⟨id, session, turn, hfound, hchange⟩
  · rw [hchange]
    exact ⟨[], goes_same hfit rfl (Nat.le_refl _)⟩
  · obtain ⟨hof, hid, hflight⟩ := h.turnMut_live hfound
    obtain ⟨-, hsession, hturn, -⟩ := turnMut_ok.mp hfound
    rw [hchange]
    by_cases hself : sessionId = id
    · subst hself
      obtain ⟨hmessage, n, -, hmade⟩ := hfit turn hof
      obtain ⟨events, hmoves⟩ := hf session turn hturn hid hflight
        (by rw [hmade]; exact turnId_ne_empty sessionId n) hmessage
      exact ⟨events, goes_put hfit hsession hmoves (by rw [put, lookup_insert_eq, if_pos rfl])
        (Nat.le_refl _)⟩
    · exact ⟨[], goes_same hfit (by rw [put, lookup_insert_eq, if_neg hself]) (Nat.le_refl _)⟩

theorem terminate_goes (h : inner.Sound) (hfit : inner.Fit sessionId) (turnId : String)
    (status : TurnStatus) (text : String) (message : Option String) (now : ℕ)
    (hmoves : ∀ (session : Session) (turn : Turn), inner.live sessionId = some turnId →
      session.turn = some turn → turn.id = turnId → turn.status.inFlight = true →
        ∃ events, session.Moves (session.terminate turnId status text message now turn) events) :
    ∃ events, Goes inner (inner.terminate turnId status text message now).2 sessionId events := by
  rcases terminate_cases inner turnId status text message now with ⟨e, -, hend⟩ |
    ⟨id, session, turn, hfound, hend⟩
  · rw [hend]
    exact ⟨[], goes_same hfit rfl (Nat.le_refl _)⟩
  · obtain ⟨hof, hid, hflight⟩ := h.turnMut_live hfound
    obtain ⟨-, hsession, hturn, -⟩ := turnMut_ok.mp hfound
    rw [hend]
    by_cases hself : sessionId = id
    · subst hself
      obtain ⟨events, hmoves⟩ := hmoves session turn (live_eq_some.mpr ⟨turn, hof, hflight, hid⟩)
        hturn hid hflight
      exact ⟨events, goes_put hfit hsession hmoves (by rw [put, lookup_insert_eq, if_pos rfl])
        (Nat.le_refl _)⟩
    · exact ⟨[], goes_same hfit (by rw [put, lookup_insert_eq, if_neg hself]) (Nat.le_refl _)⟩

theorem sentOf_entry (inner : Inner) (sessionId : String) (now : ℕ) :
    (inner.entry sessionId now).1.tx.sent = inner.sentOf sessionId ∧
      (inner.entry sessionId now).2.counter = inner.counter ∧
      (∀ session, inner.sessions.lookup sessionId = some session →
        (inner.entry sessionId now).1 = session) ∧
      ∀ other, other ≠ sessionId →
        (inner.entry sessionId now).2.sessions.lookup other = inner.sessions.lookup other := by
  unfold entry
  split
  · rename_i session hfound
    refine ⟨(sentOf_of_lookup hfound).symm, rfl, fun other hother => ?_, fun _ _ => rfl⟩
    exact Option.some.inj (hfound.symm.trans hother)
  · rename_i hfound
    refine ⟨by rw [sentOf, hfound]; rfl, rfl, fun other hother => ?_, fun other hother => ?_⟩
    · rw [hfound] at hother
      cases hother
    · exact (lookup_insert_eq _ _ _ _).trans (if_neg hother)

/-- A session entered and put back with another count of listeners. -/
theorem entry_goes (hfit : inner.Fit sessionId) (entered : String) (now : ℕ) {inner' : Inner}
    (session' : Session) (htx : session'.tx = (inner.entry entered now).1.tx)
    (hturn : session'.turn = (inner.entry entered now).1.turn)
    (hinner : inner' = (inner.entry entered now).2.put entered session') :
    Goes inner inner' sessionId [] := by
  obtain ⟨hsent, hcounter, hentered, hother⟩ := sentOf_entry inner entered now
  have hlookup := lookup_insert_eq (inner.entry entered now).2.sessions entered sessionId session'
  rw [hinner]
  by_cases hself : sessionId = entered
  · subst hself
    rw [if_pos rfl] at hlookup
    have hof : ((inner.entry sessionId now).2.put sessionId session').turnOf sessionId =
        inner.turnOf sessionId := by
      rw [turnOf_put, if_pos rfl, hturn, (turnOf_entry inner sessionId now sessionId).2.1]
    refine ⟨?_, ?_, fun turn hturn' => ?_, fun session hsession => ?_⟩
    · rw [sentOf_of_lookup hlookup, htx, hsent, List.append_nil]
    · rw [viewOf, viewOf, hof, follows_nil]
    · rw [hof] at hturn'
      obtain ⟨hmessage, n, hn, hid⟩ := hfit turn hturn'
      exact ⟨hmessage, n, Nat.lt_of_lt_of_eq hn hcounter.symm, hid⟩
    · exact ⟨session', hlookup, by rw [htx, hentered session hsession]⟩
  · rw [if_neg hself] at hlookup
    exact goes_same hfit (hlookup.trans (hother sessionId hself)) (Nat.le_of_eq hcounter.symm)

theorem subscribe_goes (hfit : inner.Fit sessionId) (entered : String) (now : ℕ) :
    Goes inner (inner.subscribe entered now).2 sessionId [] := by
  unfold subscribe
  split
  · exact goes_same hfit rfl (Nat.le_refl _)
  · split
    · exact goes_same hfit rfl (Nat.le_refl _)
    · exact entry_goes hfit entered now { (inner.entry entered now).1 with
        subscribers := (inner.entry entered now).1.subscribers + 1, lastSeen := now } rfl rfl rfl

theorem unsubscribe_goes (hfit : inner.Fit sessionId) (left : String) (now : ℕ) :
    Goes inner (inner.unsubscribe left now) sessionId [] := by
  unfold unsubscribe
  split
  · rename_i session hsession
    by_cases hself : sessionId = left
    · subst hself
      have hlookup := lookup_insert_eq inner.sessions sessionId sessionId
        { session with subscribers := session.subscribers - 1, lastSeen := now }
      rw [if_pos rfl] at hlookup
      refine goes_put hfit hsession ?_ hlookup (Nat.le_refl _)
      refine ⟨by rw [List.append_nil], follows_nil.mpr rfl, fun turn hturn => ?_⟩
      exact ⟨(hfit turn (by rw [turnOf, hsession]; exact hturn)).1, turn, hturn, rfl⟩
    · exact goes_same hfit (by rw [put, lookup_insert_eq, if_neg hself]) (Nat.le_refl _)
  · exact goes_same hfit rfl (Nat.le_refl _)

theorem counter_beginTurn (inner : Inner) (begins message : String) (clientLabel : Option String)
    (now : ℕ) : inner.counter ≤ (inner.beginTurn begins message clientLabel now).2.counter := by
  unfold beginTurn
  split
  · exact Nat.le_refl _
  · dsimp only
    split
    · exact Nat.le_refl _
    · split
      · exact Nat.le_refl _
      · have hentry := (sentOf_entry { inner with
          recentTurns := inner.recentTurns.filter (fun t => now - t < seconds 60)
          counter := inner.counter + 1 } begins now).2.1
        split
        · exact Nat.le_trans (Nat.le_succ _) (Nat.le_of_eq hentry.symm)
        · exact Nat.le_trans (Nat.le_succ _) (Nat.le_of_eq hentry.symm)

/-- A turn that begins is one more than was counted. -/
theorem begun_goes (hfit : inner.Fit sessionId) (begins : String) (recent : List ℕ) (now : ℕ)
    (hidle : inner.live begins = none) :
    ∃ events, Goes inner (inner.begun begins recent now) sessionId events := by
  obtain ⟨hsent, hcounter, hentered, hother⟩ := sentOf_entry
    { inner with recentTurns := recent, counter := inner.counter + 1 } begins now
  have hmade : (inner.begun begins recent now).counter = inner.counter + 1 := hcounter
  have hlookup : (inner.begun begins recent now).sessions.lookup sessionId = _ :=
    lookup_insert_eq _ begins sessionId _
  by_cases hself : sessionId = begins
  · subst hself
    rw [if_pos rfl] at hlookup
    have hof := turnOf_begun inner sessionId recent now sessionId
    rw [if_pos rfl] at hof
    refine ⟨[.state (turnId sessionId inner.counter) .waiting], ?_, ?_, fun turn hturn => ?_,
      fun session hsession => ?_⟩
    · rw [sentOf_of_lookup hlookup]
      exact congrArg (fun sent => sent ++ _) hsent
    · rw [viewOf, viewOf, hof, follows_one]
      cases hbefore : inner.turnOf sessionId with
      | none => rfl
      | some turn =>
        obtain ⟨-, n, hn, hid⟩ := hfit turn hbefore
        have hne : turn.id ≠ turnId sessionId inner.counter := by
          intro hsame
          have hcount := turnId_inj (hid.symm.trans hsame)
          omega
        have hended : turn.status.inFlight = false := by
          rw [← Bool.not_eq_true]
          intro hflight
          rw [live_eq_some.mpr ⟨turn, hbefore, hflight, rfl⟩] at hidle
          cases hidle
        rw [Option.map_some, Turn.view, hended]
        simp only [follow, hne, if_false]
        rfl
    · obtain rfl := Option.some.inj (hof.symm.trans hturn)
      exact ⟨nofun, inner.counter, by omega, rfl⟩
    · exact ⟨_, hlookup, congrArg (fun s => s.tx.name) (hentered session hsession :)⟩
  · rw [if_neg hself] at hlookup
    exact ⟨[], goes_same hfit (hlookup.trans (hother sessionId hself)) (by omega)⟩

end Inner

/-! ## Any of them -/

/-- A session with all its events goes. -/
def Op.forgets (op : Op) : Bool :=
  match op with
  | .call (.reap _) | .call (.disconnect _) | .call .clear => true
  | _ => false

/-- A turn of this session that fails does so with a message. -/
def Op.Tells (sessionId : String) (inner : Inner) (op : Op) : Prop :=
  match op with
  | .call (.fail turnId message _) => inner.live sessionId = some turnId → message ≠ ""
  | _ => True

/-- Whatever the relay does, what it sends leads to what there is to show. -/
theorem op_goes {inner : Inner} {sessionId : String} (h : inner.Sound) (hfit : inner.Fit sessionId)
    {op : Op} (hop : op.forgets = false) (htells : op.Tells sessionId inner) :
    ∃ events, Inner.Goes inner (op.apply inner) sessionId events := by
  cases op with
  | subscribe entered now => exact ⟨[], Inner.subscribe_goes hfit entered now⟩
  | unsubscribe left now => exact ⟨[], Inner.unsubscribe_goes hfit left now⟩
  | call it =>
    cases it with
    | beginTurn begins message clientLabel now =>
      rcases Inner.beginTurn_cases inner begins message clientLabel now with
        ⟨e, recent, counter, hbegin⟩ | ⟨recent, request, -, hidle, hbegin⟩
      · have hcounter := Inner.counter_beginTurn inner begins message clientLabel now
        rw [hbegin] at hcounter
        rw [Op.apply, Call.apply, hbegin]
        exact ⟨[], Inner.goes_same hfit rfl hcounter⟩
      · rw [Op.apply, Call.apply, hbegin]
        exact Inner.begun_goes hfit begins recent now hidle
    | pushText turnId fullText =>
      refine Inner.change_goes h hfit turnId fun session turn hturn hid hlive hne hmessage => ?_
      subst hid
      exact Session.pushText_moves fullText hturn hlive hne hmessage
    | pushStep turnId step =>
      refine Inner.change_goes h hfit turnId fun session turn hturn hid hlive hne hmessage => ?_
      subst hid
      exact ⟨_, Session.quiet_moves hturn rfl rfl rfl rfl hlive hlive hmessage
        fun text => by simp [follow, ofLive]⟩
    | ask turnId question =>
      refine Inner.change_goes h hfit turnId fun session turn hturn hid hlive hne hmessage => ?_
      subst hid
      exact ⟨_, Session.quiet_moves hturn rfl rfl rfl rfl hlive hlive hmessage
        fun text => by simp [follow, ofLive]⟩
    | answer answers reply =>
      rcases Inner.answer_cases inner answers reply with hanswer |
        ⟨session, turn, pending, hsession, hturn, -, -, hanswer⟩
      · rw [Op.apply, Call.apply, hanswer]
        exact ⟨[], Inner.goes_same hfit rfl (Nat.le_refl _)⟩
      · rw [Op.apply, Call.apply, hanswer]
        by_cases hself : sessionId = answers
        · subst hself
          have hmessage := (hfit turn (by rw [Inner.turnOf, hsession]; exact hturn)).1
          exact ⟨_, Inner.goes_put hfit hsession (Session.clearQuestion_moves hturn hmessage)
            (by rw [Inner.put, lookup_insert_eq, if_pos rfl]) (Nat.le_refl _)⟩
        · exact ⟨[], Inner.goes_same hfit (by rw [Inner.put, lookup_insert_eq, if_neg hself])
            (Nat.le_refl _)⟩
    | clearQuestion turnId =>
      refine Inner.change_goes h hfit turnId fun session turn hturn hid hlive hne hmessage => ?_
      subst hid
      exact ⟨_, Session.clearQuestion_moves hturn hmessage⟩
    | setStatus turnId status =>
      refine Inner.change_goes h hfit turnId fun session turn hturn hid hlive hne hmessage => ?_
      subst hid
      exact ⟨_, Session.quiet_moves hturn rfl rfl rfl rfl hlive status.2 hmessage
        fun text => by simp [follow]⟩
    | finish turnId text now =>
      refine Inner.terminate_goes h hfit turnId .done text none now
        fun session turn _ hturn hid hlive => ?_
      subst hid
      exact ⟨_, (Session.terminate_moves text "" now hturn hlive).1⟩
    | fail turnId message now =>
      refine Inner.terminate_goes h hfit turnId .failed "" (some message) now
        fun session turn hof hturn hid hlive => ?_
      subst hid
      exact ⟨_, (Session.terminate_moves "" message now hturn hlive).2 (htells hof)⟩
    | reap now => cases hop
    | disconnect gone => cases hop
    | clear => cases hop

end Haruspex.Relay
