import Haruspex.Library.Runs
import Haruspex.Relay.Turns

/-! Who listens to a session. A stream counts itself out by the session's id (`SubscriberGuard` of
`remote/server.rs`), also when the session it listened to is gone and another has the id. -/
namespace Haruspex.Relay
open KeyedMap Runs
set_option autoImplicit false

/-! ## Streams -/

/-- An open stream: its guard's session id, and the channel its receiver belongs to. -/
structure Stream where
  sessionId : String
  channel : ℕ
  deriving DecidableEq

structure Server where
  relay : Inner
  streams : List Stream

inductive Action where
  | openStream (sessionId : String) (now : ℕ)
  /-- The guard of a stream is dropped. -/
  | dropGuard (k : ℕ) (now : ℕ)
  | call (it : Call)

def Action.apply (action : Action) (s : Server) : Server :=
  match action with
  | .openStream sessionId now =>
    match s.relay.subscribe sessionId now with
    | (.ok (rx, _), relay) => ⟨relay, s.streams ++ [⟨sessionId, rx.channel⟩]⟩
    | (.error _, relay) => ⟨relay, s.streams⟩
  | .dropGuard k now =>
    match s.streams[k]? with
    | some stream => ⟨s.relay.unsubscribe stream.sessionId now, s.streams.eraseIdx k⟩
    | none => s
  | .call it => { s with relay := it.apply s.relay }

def Server.new : Server := ⟨Inner.new, []⟩

/-- How many open streams have their receiver on a channel. -/
def listening (streams : List Stream) (channel : ℕ) : ℕ :=
  streams.countP (fun stream => stream.channel = channel)

/-- Each session counts the open streams on its own channel. -/
def Server.Exact (s : Server) : Prop :=
  ∀ sessionId session, s.relay.sessions.lookup sessionId = some session →
    session.subscribers = listening s.streams session.tx.name

/-- `reap` goes by who is listening. -/
structure Server.ReapsRight (s : Server) (now : ℕ) : Prop where
  /-- A turn it cancels has no listener. -/
  cancels : ∀ id ∈ (s.relay.reap now).1, ∃ sessionId session turn,
    s.relay.sessions.lookup sessionId = some session ∧ session.turn = some turn ∧ turn.id = id ∧
      listening s.streams session.tx.name = 0
  /-- A session it forgets has no listener. -/
  forgets : ∀ sessionId session, s.relay.sessions.lookup sessionId = some session →
    (s.relay.reap now).2.sessions.lookup sessionId = none →
      listening s.streams session.tx.name = 0
  /-- A session without a listener stays for its time and no longer. -/
  keeps : ∀ sessionId session, s.relay.sessions.lookup sessionId = some session →
    listening s.streams session.tx.name = 0 →
      (s.relay.reap now).2.sessions.lookup sessionId =
        if now - session.lastSeen ≤ idleTimeout then some session else none

/-- A guard is dropped while its session is still there, or no session has its id, or the one that has
it has no listener. -/
def NoStaleGuard (s : Server) (action : Action) : Prop :=
  match action with
  | .dropGuard k _ => ∀ stream session, s.streams[k]? = some stream →
      s.relay.sessions.lookup stream.sessionId = some session →
        session.tx.name = stream.channel ∨ session.subscribers = 0
  | _ => True

theorem listening_concat (streams : List Stream) (stream : Stream) (channel : ℕ) :
    listening (streams ++ [stream]) channel =
      listening streams channel + if stream.channel = channel then 1 else 0 := by
  simp [listening, List.countP_append, List.countP_cons]

theorem listening_eraseIdx {streams : List Stream} {k : ℕ} {stream : Stream}
    (h : streams[k]? = some stream) (channel : ℕ) :
    listening streams channel =
      listening (streams.eraseIdx k) channel + if stream.channel = channel then 1 else 0 := by
  obtain ⟨hlt, hget⟩ := List.getElem?_eq_some_iff.mp h
  have hsplit : streams = streams.take k ++ stream :: streams.drop (k + 1) := by
    rw [← hget, List.getElem_cons_drop, List.take_append_drop]
  rw [List.eraseIdx_eq_take_drop_succ]
  conv => lhs; rw [hsplit]
  simp only [listening, List.countP_append, List.countP_cons, decide_eq_true_eq]
  omega

theorem listening_eq_zero {streams : List Stream} {channel : ℕ}
    (h : ∀ stream ∈ streams, stream.channel < channel) : listening streams channel = 0 := by
  rw [listening, List.countP_eq_zero]
  intro stream hstream
  have hlt := h stream hstream
  simp only [decide_eq_true_eq]
  omega

/-! ## The count of a session -/

namespace Inner

variable {inner : Inner} {sessionId : String}

/-- A session's channel, and how many listeners it counts. -/
def ears (inner : Inner) (sessionId : String) : Option (ℕ × ℕ) :=
  (inner.sessions.lookup sessionId).map (fun session => (session.tx.name, session.subscribers))

theorem ears_eq_some {channel count : ℕ} : inner.ears sessionId = some (channel, count) ↔
    ∃ session, inner.sessions.lookup sessionId = some session ∧ session.tx.name = channel ∧
      session.subscribers = count := by
  simp [ears, Option.map_eq_some_iff]

theorem ears_put (inner : Inner) (sessionId : String) (session : Session) (other : String) :
    (inner.put sessionId session).ears other =
      if other = sessionId then some (session.tx.name, session.subscribers)
      else inner.ears other := by
  rw [ears, put, lookup_insert_eq]
  split
  · rfl
  · rfl

/-- What an operation does to the counts when no stream opens or ends: a session may go, and one may be
made. -/
structure Quiet (inner inner' : Inner) (opened : String) : Prop where
  channels : inner.channels ≤ inner'.channels
  ears : ∀ sessionId, inner'.ears sessionId = inner.ears sessionId ∨ inner'.ears sessionId = none ∨
    (sessionId = opened ∧ inner.ears sessionId = none ∧
      inner'.ears sessionId = some (inner.channels, 0) ∧ inner.channels < inner'.channels)

theorem Quiet.of_ears {inner' : Inner} (hchannels : inner.channels ≤ inner'.channels)
    (h : ∀ sessionId, inner'.ears sessionId = inner.ears sessionId ∨ inner'.ears sessionId = none) :
    Quiet inner inner' "" :=
  ⟨hchannels, fun sessionId => (h sessionId).imp_right Or.inl⟩

/-- A session that is there has the count it had, or is new. -/
theorem Quiet.cases {inner' : Inner} {opened : String} (h : Quiet inner inner' opened)
    {channel count : ℕ} (hears : inner'.ears sessionId = some (channel, count)) :
    inner.ears sessionId = some (channel, count) ∨
      sessionId = opened ∧ channel = inner.channels ∧ count = 0 ∧ inner.channels < inner'.channels := by
  rcases h.ears sessionId with hsame | hgone | ⟨hopened, -, hnew, hmore⟩
  · exact Or.inl (hsame.symm.trans hears)
  · rw [hgone] at hears
    cases hears
  · simp only [hnew, Option.some.injEq, Prod.mk.injEq] at hears
    exact Or.inr ⟨hopened, hears.1.symm, hears.2.symm, hmore⟩

/-- A change of sessions that leaves their channels and counts alone. -/
def KeepsEars (f : Session → Turn → Session) : Prop :=
  ∀ session turn, (f session turn).tx.name = session.tx.name ∧
    (f session turn).subscribers = session.subscribers

theorem ears_put_same (inner : Inner) {session : Session} (session' : Session)
    (hfound : inner.sessions.lookup sessionId = some session)
    (hname : session'.tx.name = session.tx.name) (hcount : session'.subscribers = session.subscribers)
    (other : String) : (inner.put sessionId session').ears other = inner.ears other := by
  rw [ears_put]
  split
  · rename_i hself
    rw [hself, hname, hcount, ears, hfound]
    rfl
  · rfl

theorem change_quiet {f : Session → Turn → Session} (hf : KeepsEars f) (turnId : String) :
    Quiet inner (inner.change turnId f).2 "" := by
  rcases change_cases inner turnId f with ⟨e, -, hchange⟩ | ⟨sessionId, session, turn, hfound, hchange⟩
  · rw [hchange]
    exact Quiet.of_ears (Nat.le_refl _) (fun _ => Or.inl rfl)
  · obtain ⟨-, hsession, -, -⟩ := turnMut_ok.mp hfound
    rw [hchange]
    exact Quiet.of_ears (Nat.le_refl _) (fun other =>
      Or.inl (ears_put_same inner _ hsession (hf session turn).1 (hf session turn).2 other))

theorem pushText_keepsEars (turnId fullText : String) :
    KeepsEars (Session.pushText turnId fullText) := by
  intro session turn
  unfold Session.pushText
  split
  · exact ⟨rfl, rfl⟩
  · split <;> exact ⟨rfl, rfl⟩

theorem pushStep_keepsEars (turnId : String) (step : Step) :
    KeepsEars (Session.pushStep turnId step) := fun _ _ => ⟨rfl, rfl⟩

theorem ask_keepsEars (turnId : String) (question : Question) :
    KeepsEars (Session.ask turnId question) := fun _ _ => ⟨rfl, rfl⟩

theorem clearQuestion_keepsEars (turnId : String) : KeepsEars (Session.clearQuestion turnId) :=
  fun _ _ => ⟨rfl, rfl⟩

theorem setStatus_keepsEars (turnId : String) (status : TurnStatus) :
    KeepsEars (Session.setStatus turnId status) := fun _ _ => ⟨rfl, rfl⟩

theorem terminate_quiet (turnId : String) (status : TurnStatus) (text : String)
    (message : Option String) (now : ℕ) :
    Quiet inner (inner.terminate turnId status text message now).2 "" := by
  rcases terminate_cases inner turnId status text message now with ⟨e, -, hend⟩ |
    ⟨sessionId, session, turn, hfound, hend⟩
  · rw [hend]
    exact Quiet.of_ears (Nat.le_refl _) (fun _ => Or.inl rfl)
  · obtain ⟨-, hsession, -, -⟩ := turnMut_ok.mp hfound
    rw [hend]
    refine Quiet.of_ears (Nat.le_refl _) (fun other => Or.inl ?_)
    exact ears_put_same { inner with turns := inner.turns.erase turnId }
      (Session.terminate turnId status text message now session turn) hsession rfl rfl other

theorem ears_entry (inner : Inner) (sessionId : String) (now : ℕ) :
    (∀ other, (inner.entry sessionId now).2.ears other = if other = sessionId then
        some ((inner.entry sessionId now).1.tx.name, (inner.entry sessionId now).1.subscribers)
      else inner.ears other) ∧
    ((inner.ears sessionId = some ((inner.entry sessionId now).1.tx.name,
          (inner.entry sessionId now).1.subscribers) ∧
        (inner.entry sessionId now).2.channels = inner.channels) ∨
      inner.ears sessionId = none ∧ (inner.entry sessionId now).1.tx.name = inner.channels ∧
        (inner.entry sessionId now).1.subscribers = 0 ∧
        (inner.entry sessionId now).2.channels = inner.channels + 1) := by
  unfold entry
  split
  · rename_i session hfound
    have hears : inner.ears sessionId = some (session.tx.name, session.subscribers) := by
      rw [ears, hfound]
      rfl
    refine ⟨fun other => ?_, Or.inl ⟨hears, rfl⟩⟩
    split
    · rename_i hself
      rw [hself]
      exact hears
    · rfl
  · rename_i hfound
    refine ⟨fun other => ?_, Or.inr ⟨by rw [ears, hfound]; rfl, rfl, rfl, rfl⟩⟩
    exact ears_put inner sessionId _ other

/-- A session that is entered, and maybe made, with its listeners as they were. -/
theorem entry_quiet (inner : Inner) (sessionId : String) (now : ℕ) {inner' : Inner}
    (hchannels : inner'.channels = (inner.entry sessionId now).2.channels)
    (h : ∀ other, inner'.ears other = (inner.entry sessionId now).2.ears other) :
    Quiet inner inner' sessionId := by
  obtain ⟨hears, hentered⟩ := ears_entry inner sessionId now
  refine ⟨by rw [hchannels]; rcases hentered with ⟨-, h⟩ | ⟨-, -, -, h⟩ <;> omega, fun other => ?_⟩
  rw [h, hears]
  split
  · rename_i hself
    rw [hself]
    rcases hentered with ⟨hold, -⟩ | ⟨hnone, hname, hcount, hmore⟩
    · exact Or.inl hold.symm
    · exact Or.inr (Or.inr ⟨rfl, hnone, by rw [hname, hcount], by rw [hchannels, hmore]; omega⟩)
  · exact Or.inl rfl

theorem ears_put_entry (inner : Inner) (sessionId : String) (now : ℕ) (session : Session)
    (hname : session.tx.name = (inner.entry sessionId now).1.tx.name)
    (hcount : session.subscribers = (inner.entry sessionId now).1.subscribers) (other : String) :
    ((inner.entry sessionId now).2.put sessionId session).ears other =
      (inner.entry sessionId now).2.ears other := by
  rw [ears_put]
  split
  · rename_i hself
    rw [(ears_entry inner sessionId now).1 other, if_pos hself, hname, hcount]
  · rfl

theorem beginTurn_quiet (inner : Inner) (sessionId message : String) (clientLabel : Option String)
    (now : ℕ) : Quiet inner (inner.beginTurn sessionId message clientLabel now).2 sessionId := by
  rcases beginTurn_cases inner sessionId message clientLabel now with
    ⟨e, recent, counter, hbegin⟩ | ⟨recent, request, -, -, hbegin⟩
  · rw [hbegin]
    exact ⟨Nat.le_refl _, fun _ => Or.inl rfl⟩
  · rw [hbegin]
    let counted := { inner with recentTurns := recent, counter := inner.counter + 1 }
    have hears : ∀ other, (inner.begun sessionId recent now).ears other =
        (counted.entry sessionId now).2.ears other :=
      ears_put_entry counted sessionId now
        ((counted.entry sessionId now).1.beginTurn (turnId sessionId inner.counter) now) rfl rfl
    have hquiet : Quiet counted (inner.begun sessionId recent now) sessionId :=
      entry_quiet counted sessionId now rfl hears
    exact ⟨hquiet.channels, hquiet.ears⟩

theorem reap_quiet (inner : Inner) (now : ℕ) : Quiet inner (inner.reap now).2 "" := by
  refine Quiet.of_ears (Nat.le_refl _) (fun sessionId => ?_)
  rw [ears, ears, lookup_reap]
  cases inner.sessions.lookup sessionId with
  | none => exact Or.inl rfl
  | some session =>
    rw [Option.bind_some]
    split
    · exact Or.inl rfl
    · split
      · exact Or.inl rfl
      · exact Or.inr rfl

theorem disconnect_quiet (inner : Inner) (sessionId : String) :
    Quiet inner (inner.disconnect sessionId).2 "" := by
  unfold disconnect
  split
  · exact Quiet.of_ears (Nat.le_refl _) (fun _ => Or.inl rfl)
  · refine Quiet.of_ears (Nat.le_refl _) (fun other => ?_)
    rw [ears]
    dsimp only
    rw [lookup_erase_eq]
    split
    · exact Or.inr rfl
    · exact Or.inl rfl

theorem call_quiet (inner : Inner) (call : Call) : ∃ opened, Quiet inner (call.apply inner) opened := by
  cases call with
  | beginTurn sessionId message clientLabel now =>
    exact ⟨_, beginTurn_quiet inner sessionId message clientLabel now⟩
  | pushText turnId fullText => exact ⟨_, change_quiet (pushText_keepsEars turnId fullText) turnId⟩
  | pushStep turnId step => exact ⟨_, change_quiet (pushStep_keepsEars turnId step) turnId⟩
  | ask turnId question => exact ⟨_, change_quiet (ask_keepsEars turnId question) turnId⟩
  | answer sessionId answer =>
    rcases answer_cases inner sessionId answer with hanswer |
      ⟨session, turn, pending, hsession, -, -, -, hanswer⟩
    · rw [Call.apply, hanswer]
      exact ⟨"", Quiet.of_ears (Nat.le_refl _) (fun _ => Or.inl rfl)⟩
    · rw [Call.apply, hanswer]
      exact ⟨"", Quiet.of_ears (Nat.le_refl _)
        (fun other => Or.inl (ears_put_same inner (Session.clearQuestion turn.id session turn) hsession rfl
          rfl other))⟩
  | clearQuestion turnId => exact ⟨_, change_quiet (clearQuestion_keepsEars turnId) turnId⟩
  | setStatus turnId status => exact ⟨_, change_quiet (setStatus_keepsEars turnId status) turnId⟩
  | finish turnId text now => exact ⟨_, terminate_quiet turnId _ text _ now⟩
  | fail turnId message now => exact ⟨_, terminate_quiet turnId _ _ (some message) now⟩
  | reap now => exact ⟨_, reap_quiet inner now⟩
  | disconnect sessionId => exact ⟨_, disconnect_quiet inner sessionId⟩
  | clear => exact ⟨"", Quiet.of_ears (Nat.le_refl _) (fun _ => Or.inr rfl)⟩

end Inner

/-! ## Streams and channels -/

/-- Channels are not shared, and a stream's channel is that of a session of its id or of none. -/
structure Server.Wired (s : Server) : Prop where
  made : ∀ sessionId channel count, s.relay.ears sessionId = some (channel, count) →
    channel < s.relay.channels
  streams : ∀ stream ∈ s.streams, stream.channel < s.relay.channels
  apart : ∀ a b channel m n, s.relay.ears a = some (channel, m) → s.relay.ears b = some (channel, n) →
    a = b
  home : ∀ stream ∈ s.streams, ∀ sessionId count,
    s.relay.ears sessionId = some (stream.channel, count) → sessionId = stream.sessionId

namespace Server

variable {s : Server}

theorem exact_iff : s.Exact ↔ ∀ sessionId channel count,
    s.relay.ears sessionId = some (channel, count) → count = listening s.streams channel := by
  constructor
  · intro h sessionId channel count hears
    obtain ⟨session, hsession, rfl, rfl⟩ := Inner.ears_eq_some.mp hears
    exact h sessionId session hsession
  · intro h sessionId session hsession
    exact h sessionId _ _ (Inner.ears_eq_some.mpr ⟨session, hsession, rfl, rfl⟩)

theorem Wired.quiet (h : s.Wired) {relay : Inner} {opened : String}
    (hquiet : Inner.Quiet s.relay relay opened) : Wired { s with relay := relay } := by
  refine ⟨fun sessionId channel count hears => ?_, fun stream hmem => ?_,
    fun a b channel m n ha hb => ?_, fun stream hmem sessionId count hears => ?_⟩
  · rcases hquiet.cases hears with hold | ⟨-, rfl, -, hmore⟩
    · exact Nat.lt_of_lt_of_le (h.made sessionId channel count hold) hquiet.channels
    · exact hmore
  · exact Nat.lt_of_lt_of_le (h.streams stream hmem) hquiet.channels
  · rcases hquiet.cases ha with hold | ⟨rfl, hchannel, -, -⟩
    · rcases hquiet.cases hb with hold' | ⟨-, hchannel', -, -⟩
      · exact h.apart a b channel m n hold hold'
      · have hlt := h.made a channel m hold
        omega
    · rcases hquiet.cases hb with hold' | ⟨rfl, -, -, -⟩
      · have hlt := h.made b channel n hold'
        omega
      · rfl
  · rcases hquiet.cases hears with hold | ⟨-, hchannel, -, -⟩
    · exact h.home stream hmem sessionId count hold
    · have hlt := h.streams stream hmem
      omega

theorem quiet_exact (hwired : s.Wired) (h : s.Exact) {relay : Inner} {opened : String}
    (hquiet : Inner.Quiet s.relay relay opened) : Exact { s with relay := relay } := by
  rw [exact_iff] at h ⊢
  intro sessionId channel count hears
  rcases hquiet.cases hears with hold | ⟨-, rfl, rfl, -⟩
  · exact h sessionId channel count hold
  · exact (listening_eq_zero hwired.streams).symm

/-- Sessions that keep their channels, and streams that are on them. -/
theorem Wired.counted (h : s.Wired) {relay : Inner} {streams : List Stream}
    (hchannels : relay.channels = s.relay.channels)
    (hwas : ∀ sessionId channel count, relay.ears sessionId = some (channel, count) →
      ∃ n, s.relay.ears sessionId = some (channel, n))
    (hstreams : ∀ stream ∈ streams, stream ∈ s.streams ∨
      ∃ n, s.relay.ears stream.sessionId = some (stream.channel, n)) : Wired ⟨relay, streams⟩ := by
  refine ⟨fun sessionId channel count hears => ?_, fun stream hmem => ?_,
    fun a b channel m n ha hb => ?_, fun stream hmem sessionId count hears => ?_⟩
  · obtain ⟨n, hold⟩ := hwas sessionId channel count hears
    rw [hchannels]
    exact h.made sessionId channel n hold
  · rw [hchannels]
    rcases hstreams stream hmem with hold | ⟨n, hold⟩
    · exact h.streams stream hold
    · exact h.made stream.sessionId stream.channel n hold
  · obtain ⟨m', ha'⟩ := hwas a channel m ha
    obtain ⟨n', hb'⟩ := hwas b channel n hb
    exact h.apart a b channel m' n' ha' hb'
  · obtain ⟨n, hold⟩ := hwas sessionId stream.channel count hears
    rcases hstreams stream hmem with hmem' | ⟨m, hown⟩
    · exact h.home stream hmem' sessionId n hold
    · exact h.apart sessionId stream.sessionId stream.channel n m hold hown

/-! ## A stream that opens -/

theorem subscribe_cases (inner : Inner) (sessionId : String) (now : ℕ) :
    (∃ e, inner.subscribe sessionId now = (.error e, inner)) ∨
    ∃ snapshot, inner.subscribe sessionId now =
      (.ok (⟨(inner.entry sessionId now).1.tx.name, (inner.entry sessionId now).1.tx.sent.length⟩,
          snapshot),
        (inner.entry sessionId now).2.put sessionId { (inner.entry sessionId now).1 with
          subscribers := (inner.entry sessionId now).1.subscribers + 1, lastSeen := now }) := by
  unfold Inner.subscribe
  split
  · exact Or.inl ⟨_, rfl⟩
  · split
    · exact Or.inl ⟨_, rfl⟩
    · exact Or.inr ⟨_, rfl⟩

/-- One more listener, on both sides. -/
theorem heard (hwired : s.Wired) {sessionId : String} {channel count : ℕ} {relay : Inner}
    (hbefore : s.relay.ears sessionId = some (channel, count))
    (hears : ∀ other, relay.ears other =
      if other = sessionId then some (channel, count + 1) else s.relay.ears other)
    (hchannels : relay.channels = s.relay.channels) :
    Wired ⟨relay, s.streams ++ [⟨sessionId, channel⟩]⟩ ∧
      (s.Exact → Exact ⟨relay, s.streams ++ [⟨sessionId, channel⟩]⟩) := by
  have hcases (other : String) (channel' count' : ℕ)
      (h : relay.ears other = some (channel', count')) :
      (other = sessionId ∧ channel' = channel ∧ count' = count + 1) ∨
        (other ≠ sessionId ∧ s.relay.ears other = some (channel', count')) := by
    rw [hears] at h
    split at h
    · rename_i hself
      simp only [Option.some.injEq, Prod.mk.injEq] at h
      exact Or.inl ⟨hself, h.1.symm, h.2.symm⟩
    · rename_i hother
      exact Or.inr ⟨hother, h⟩
  refine ⟨hwired.counted hchannels (fun other channel' count' h => ?_) (fun stream hmem => ?_),
    fun hexact => ?_⟩
  · rcases hcases other channel' count' h with ⟨rfl, rfl, -⟩ | ⟨-, hold⟩
    · exact ⟨count, hbefore⟩
    · exact ⟨count', hold⟩
  · rcases List.mem_append.mp hmem with hold | hnew
    · exact Or.inl hold
    · rw [List.mem_singleton.mp hnew]
      exact Or.inr ⟨count, hbefore⟩
  · rw [exact_iff] at hexact ⊢
    intro other channel' count' h
    rw [listening_concat]
    rcases hcases other channel' count' h with ⟨rfl, rfl, rfl⟩ | ⟨hother, hold⟩
    · rw [if_pos rfl, hexact other channel' count hbefore]
    · have hne : channel ≠ channel' := by
        rintro rfl
        exact hother (hwired.apart other sessionId channel count' count hold hbefore)
      rw [if_neg hne]
      exact hexact other channel' count' hold

theorem opens (hwired : s.Wired) (sessionId : String) (now : ℕ) :
    ((Action.openStream sessionId now).apply s).Wired ∧
      (s.Exact → ((Action.openStream sessionId now).apply s).Exact) := by
  simp only [Action.apply]
  rcases subscribe_cases s.relay sessionId now with ⟨e, hsub⟩ | ⟨snapshot, hsub⟩
  · rw [hsub]
    exact ⟨hwired, fun h => h⟩
  · rw [hsub]
    have hquiet := Inner.entry_quiet s.relay sessionId now rfl (fun _ => rfl)
    have hbefore := (Inner.ears_entry s.relay sessionId now).1 sessionId
    rw [if_pos rfl] at hbefore
    have hafter := Inner.ears_put (s.relay.entry sessionId now).2 sessionId
      { (s.relay.entry sessionId now).1 with
        subscribers := (s.relay.entry sessionId now).1.subscribers + 1, lastSeen := now }
    obtain ⟨hwired', hexact'⟩ := heard (s := ⟨(s.relay.entry sessionId now).2, s.streams⟩)
      (hwired.quiet hquiet) hbefore hafter rfl
    exact ⟨hwired', fun h => hexact' (quiet_exact hwired h hquiet)⟩

/-! ## A stream that ends -/

theorem ears_unsubscribe (inner : Inner) (sessionId : String) (now : ℕ) (other : String) :
    (inner.unsubscribe sessionId now).ears other =
      if other = sessionId then (inner.ears sessionId).map (fun e => (e.1, e.2 - 1))
      else inner.ears other := by
  unfold Inner.unsubscribe
  split
  · rename_i session hsession
    rw [Inner.ears_put]
    split
    · rw [Inner.ears, hsession]
      rfl
    · rfl
  · rename_i hnone
    split
    · rename_i hself
      rw [hself, Inner.ears, hnone]
      rfl
    · rfl

theorem ears_unsubscribe_cases {inner : Inner} {sessionId other : String} {now channel count : ℕ}
    (h : (inner.unsubscribe sessionId now).ears other = some (channel, count)) :
    (∃ n, other = sessionId ∧ inner.ears other = some (channel, n) ∧ count = n - 1) ∨
      (other ≠ sessionId ∧ inner.ears other = some (channel, count)) := by
  rw [ears_unsubscribe] at h
  split at h
  · rename_i hself
    obtain ⟨⟨c, n⟩, hears, hsame⟩ := Option.map_eq_some_iff.mp h
    simp only [Prod.mk.injEq] at hsame
    obtain ⟨rfl, rfl⟩ := hsame
    exact Or.inl ⟨n, hself, by rw [hself]; exact hears, rfl⟩
  · rename_i hother
    exact Or.inr ⟨hother, h⟩

theorem Wired.drop (hwired : s.Wired) (k : ℕ) (now : ℕ) :
    ((Action.dropGuard k now).apply s).Wired := by
  simp only [Action.apply]
  split
  · rename_i stream hk
    refine hwired.counted ?_ (fun other channel count h => ?_)
      (fun stream' hmem => Or.inl (List.mem_of_mem_eraseIdx hmem))
    · unfold Inner.unsubscribe
      split <;> rfl
    · rcases ears_unsubscribe_cases h with ⟨n, -, hold, -⟩ | ⟨-, hold⟩
      · exact ⟨n, hold⟩
      · exact ⟨count, hold⟩
  · exact hwired

/-- The count stays exact just when the guard is not one of another session. -/
theorem drop_exact_iff (hwired : s.Wired) (hexact : s.Exact) (k now : ℕ) :
    ((Action.dropGuard k now).apply s).Exact ↔ NoStaleGuard s (.dropGuard k now) := by
  have hcount := exact_iff.mp hexact
  simp only [Action.apply, NoStaleGuard]
  cases hk : s.streams[k]? with
  | none => exact ⟨fun _ => nofun, fun _ => hexact⟩
  | some stream =>
    dsimp only
    constructor
    · intro hafter stream' session hsame hsession
      obtain rfl := Option.some.inj hsame
      have hears : s.relay.ears stream.sessionId = some (session.tx.name, session.subscribers) :=
        Inner.ears_eq_some.mpr ⟨session, hsession, rfl, rfl⟩
      have hafter' := exact_iff.mp hafter stream.sessionId session.tx.name (session.subscribers - 1)
        (by rw [ears_unsubscribe, if_pos rfl, hears]; rfl)
      have hbefore := hcount _ _ _ hears
      have hlist := listening_eraseIdx hk session.tx.name
      by_cases hname : session.tx.name = stream.channel
      · exact Or.inl hname
      · rw [if_neg (Ne.symm hname)] at hlist
        right
        dsimp only at hafter'
        omega
    · intro hstale
      rw [exact_iff]
      intro other channel count h
      have hlist := listening_eraseIdx hk channel
      rcases ears_unsubscribe_cases h with ⟨n, rfl, hold, rfl⟩ | ⟨hother, hold⟩
      · have hbefore := hcount _ _ _ hold
        obtain ⟨session, hsession, rfl, rfl⟩ := Inner.ears_eq_some.mp hold
        dsimp only
        rcases hstale stream session rfl hsession with hname | hnone
        · rw [if_pos hname.symm] at hlist
          omega
        · split at hlist <;> omega
      · have hbefore := hcount _ _ _ hold
        have hne : stream.channel ≠ channel := by
          rintro rfl
          exact hother (hwired.home stream (List.mem_of_getElem? hk) other count hold)
        rw [if_neg hne] at hlist
        dsimp only
        omega

/-! ## Reaping -/

theorem reaps_right (h : s.Exact) (now : ℕ) : s.ReapsRight now := by
  refine ⟨fun id hid => ?_, fun sessionId session hsession hgone => ?_,
    fun sessionId session hsession hnone => ?_⟩
  · obtain ⟨⟨sessionId, session⟩, hmem, horphan⟩ := List.mem_filterMap.mp hid
    have hsession := mem_entries.mp hmem
    unfold Inner.orphan at horphan
    split at horphan
    · rename_i hlonely
      obtain ⟨turn, hturn, hsame⟩ := Option.map_eq_some_iff.mp horphan
      refine ⟨sessionId, session, turn, hsession, hturn, hsame, ?_⟩
      rw [← h sessionId session hsession]
      exact hlonely.1
    · cases horphan
  · rw [← h sessionId session hsession]
    rw [Inner.lookup_reap, hsession, Option.bind_some] at hgone
    split at hgone
    · cases hgone
    · omega
  · rw [← h sessionId session hsession] at hnone
    rw [Inner.lookup_reap, hsession, Option.bind_some, if_neg (by omega)]

end Server

/-! ## Runs -/

theorem new_wired : Server.new.Wired :=
  ⟨nofun, nofun, nofun, nofun⟩

theorem wired_step {s : Server} (h : s.Wired) (action : Action) : (action.apply s).Wired := by
  cases action with
  | openStream sessionId now => exact (Server.opens h sessionId now).1
  | dropGuard k now => exact h.drop k now
  | call it =>
    obtain ⟨opened, hquiet⟩ := Inner.call_quiet s.relay it
    exact h.quiet hquiet

theorem exact_step {s : Server} (hwired : s.Wired) (h : s.Exact) {action : Action}
    (hstale : NoStaleGuard s action) : (action.apply s).Exact := by
  cases action with
  | openStream sessionId now => exact (Server.opens hwired sessionId now).2 h
  | dropGuard k now => exact (Server.drop_exact_iff hwired h k now).mpr hstale
  | call it =>
    obtain ⟨opened, hquiet⟩ := Inner.call_quiet s.relay it
    exact Server.quiet_exact hwired h hquiet

theorem run_wired (actions : List Action) : (run Action.apply Server.new actions).Wired :=
  run_keeps Server.Wired (P := fun _ _ => True) (fun _ action h _ => wired_step h action) new_wired
    (fun _ _ _ _ => trivial)

/-- Listeners are counted exactly, and sessions reaped by who listens, in every state there is, exactly
as long as no guard counts out a listener of another session. -/
theorem listeners_exact_iff (actions : List Action) :
    (∀ before after, actions = before ++ after → (run Action.apply Server.new before).Exact ∧
        ∀ now, (run Action.apply Server.new before).ReapsRight now) ↔
      EveryStep Action.apply Server.new actions NoStaleGuard := by
  constructor
  · intro h before action after hactions
    cases action with
    | dropGuard k now =>
      have hexact := (h before _ hactions).1
      have hnext := (h (before ++ [.dropGuard k now]) after
        (by rw [hactions, List.append_assoc, List.cons_append, List.nil_append])).1
      rw [run_append] at hnext
      exact (Server.drop_exact_iff (run_wired before) hexact k now).mp hnext
    | openStream sessionId now => trivial
    | call it => trivial
  · rintro h before after rfl
    have hbefore := (everyStep_append.mp h).1
    have hexact := (run_keeps (fun s : Server => s.Wired ∧ s.Exact)
      (fun _ action hs hstale => ⟨wired_step hs.1 action, exact_step hs.1 hs.2 hstale⟩)
      ⟨new_wired, nofun⟩ hbefore).2
    exact ⟨hexact, Server.reaps_right hexact⟩

/-! The host throws a guest off, who comes back before the old stream has ended. -/

def comesBack : List Action :=
  [.openStream "s" 0, .call (.disconnect "s"), .openStream "s" 1, .dropGuard 0 2]

theorem listener_counted_out :
    ¬ (∀ before after, comesBack = before ++ after → (run Action.apply Server.new before).Exact ∧
      ∀ now, (run Action.apply Server.new before).ReapsRight now) := by
  intro h
  have hexact := (h comesBack [] (List.append_nil _).symm).1 "s" ⟨⟨1, []⟩, none, 0, 2⟩ (by decide)
  exact absurd hexact (by decide)

end Haruspex.Relay
