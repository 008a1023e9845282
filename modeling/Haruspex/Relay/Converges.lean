import Haruspex.Library.Runs
import Haruspex.Relay.Feed

/-! A guest's stream (`event_stream` of `remote/server.rs`) with the page behind it, reading at any
pace. -/
namespace Haruspex.Relay
open KeyedMap Runs Replicas
set_option autoImplicit false

/-! ## Reading -/

inductive Received where
  | event (event : RemoteEvent)
  /-- Events were missed; the next to read is the oldest still kept. -/
  | lagged (oldest : ℕ)
  | waits

/-- The channel keeps its newest events. -/
def Channel.recv (tx : Channel) (next : ℕ) : Received :=
  if next < tx.sent.length - channelCapacity then .lagged (tx.sent.length - channelCapacity)
  else
    match tx.sent[next]? with
    | some event => .event event
    | none => .waits

def Inner.snapshot (inner : Inner) (sessionId : String) : Option RemoteEvent :=
  (inner.sessions.lookup sessionId).map Session.snapshot

/-- The state of a stream. -/
structure Reader where
  rx : Receiver
  /-- The snapshot to send before anything else. -/
  pending : Option RemoteEvent
  /-- It was told that it missed events, and takes a snapshot next. -/
  lagged : Bool

structure Guest where
  relay : Inner
  reader : Option Reader
  client : Client

def Guest.new : Guest := ⟨Inner.new, none, Client.new⟩

inductive Move where
  | relay (op : { op : Op // op.forgets = false })
  /-- The page opens its stream, also when it had one before. -/
  | openStream (now : ℕ)
  | read

/-- The next thing the stream does. -/
def Guest.read (sessionId : String) (g : Guest) (r : Reader) : Guest :=
  match r.pending with
  | some event => { g with
      reader := some { r with pending := none }
      client := g.client.handle event }
  | none =>
    if r.lagged then
      -- other calls can come between the lag and this
      { g with reader := (g.relay.snapshot sessionId).map (fun snapshot =>
          { r with pending := some snapshot, lagged := false }) }
    else
      match (g.relay.sessions.lookup sessionId).filter (fun s => s.tx.name = r.rx.channel) with
      | some session =>
        match session.tx.recv r.rx.next with
        | .event event => { g with
            reader := some { r with rx := { r.rx with next := r.rx.next + 1 } }
            client := g.client.handle event }
        | .lagged oldest => { g with
            reader := some { r with rx := { r.rx with next := oldest }, lagged := true } }
        | .waits => g
      | none => { g with reader := none }

def Move.apply (sessionId : String) (move : Move) (g : Guest) : Guest :=
  match move with
  | .relay op => { g with relay := op.1.apply g.relay }
  | .openStream now =>
    match g.relay.subscribe sessionId now with
    | (.ok (rx, snapshot), entered) => { g with
        relay := entered
        reader := some ⟨rx, some snapshot, false⟩ }
    | (.error _, entered) => { g with relay := entered, reader := none }
  | .read =>
    match g.reader with
    | some r => g.read sessionId r
    | none => g

/-- The stream has consumed every event sent so far. -/
def Guest.CaughtUp (sessionId : String) (g : Guest) : Prop :=
  ∃ r session, g.reader = some r ∧ g.relay.sessions.lookup sessionId = some session ∧
    r.pending = none ∧ r.lagged = false ∧ r.rx.next = session.tx.sent.length

/-- The page shows the session's turn as the relay has it. -/
def Guest.ShowsTurn (sessionId : String) (g : Guest) : Prop :=
  ∀ turn, g.relay.turnOf sessionId = some turn → g.client.shown turn.id = some turn.says

/-! ## Events read again -/

def RemoteEvent.isDelta (event : RemoteEvent) : Bool :=
  match event with
  | .delta _ _ => true
  | _ => false

/-- An event that has all of the text it is shown with. -/
def RemoteEvent.hasAll (event : RemoteEvent) : Bool :=
  match event with
  | .snapshot turnId _ _ _ _ _ => turnId.isSome
  | .done _ _ | .error _ _ => true
  | _ => false

/-- No turn fails without a message; and where a stream that missed events takes a snapshot, no delta is
still to be read, or an event with all of the text is. -/
def Unmixed (sessionId : String) (g : Guest) (move : Move) : Prop :=
  match move with
  | .relay op => op.1.Tells sessionId g.relay
  | .openStream _ => True
  | .read => ∀ r session, g.reader = some r → g.relay.sessions.lookup sessionId = some session →
      r.pending = none → r.lagged = true →
        ∀ event ∈ session.tx.sent.drop r.rx.next, event.isDelta = true →
          ∃ event' ∈ session.tx.sent.drop r.rx.next, event'.hasAll = true

theorem whole_of_hasAll {event : RemoteEvent} {v v' : Option View} (h : event.hasAll = true)
    (hfollow : follow v event = some v') : Whole Client.handle Client.Shows event v' := by
  cases event with
  | snapshot turnId text status message steps question =>
    cases turnId with
    | none => cases h
    | some id =>
      unfold follow at hfollow
      dsimp only at hfollow
      split at hfollow
      · cases hfollow
      · rename_i hid
        obtain rfl := Option.some.inj hfollow
        exact Client.whole_snapshot hid text status message steps question
  | done turnId text =>
    obtain ⟨w, rfl, rfl, -, rfl⟩ := ofLive_eq_some hfollow
    exact Client.whole_done w.id text
  | error turnId message =>
    unfold follow at hfollow
    dsimp only at hfollow
    split at hfollow
    · cases hfollow
    · rename_i hmessage
      obtain ⟨w, rfl, rfl, -, rfl⟩ := ofLive_eq_some hfollow
      exact Client.whole_error w.id hmessage
  | delta turnId text => cases h
  | state turnId status => cases h
  | step turnId step => cases h
  | question turnId question => cases h
  | questionCleared turnId => cases h

/-- There is always something to show once there was. -/
theorem follows_to_none {v : Option View} {events : List RemoteEvent}
    (h : Follows follow v events none) : v = none := by
  induction events generalizing v with
  | nil => exact follows_nil.mp h
  | cons event events ih =>
    obtain ⟨next, hnext, hrest⟩ := follows_cons.mp h
    obtain rfl := ih hrest
    cases event with
    | snapshot turnId text status message steps question =>
      cases turnId with
      | none => exact Option.some.inj hnext
      | some id =>
        unfold follow at hnext
        dsimp only at hnext
        split at hnext <;> cases hnext
    | delta turnId text =>
      obtain ⟨w, -, -, -, hw⟩ := ofLive_eq_some hnext
      cases hw
    | done turnId text =>
      obtain ⟨w, -, -, -, hw⟩ := ofLive_eq_some hnext
      cases hw
    | error turnId message =>
      unfold follow at hnext
      dsimp only at hnext
      split at hnext
      · cases hnext
      · obtain ⟨w, -, -, -, hw⟩ := ofLive_eq_some hnext
        cases hw
    | state turnId status =>
      unfold follow at hnext
      dsimp only at hnext
      split at hnext
      · split at hnext <;> split at hnext <;> cases hnext
      · cases hnext
    | step turnId step =>
      obtain ⟨w, -, -, -, hw⟩ := ofLive_eq_some hnext
      cases hw
    | question turnId question =>
      obtain ⟨w, -, -, -, hw⟩ := ofLive_eq_some hnext
      cases hw
    | questionCleared turnId =>
      unfold follow at hnext
      dsimp only at hnext
      split at hnext
      · cases hnext
      · exact Option.some.inj hnext

/-- An event without text is of the live turn there is then, or changes nothing wherever it comes. -/
theorem textless_cases {event : RemoteEvent} {v v' : Option View} (hdelta : event.isDelta = false)
    (hall : event.hasAll = false) (h : follow v event = some v') :
    (∃ w, v' = some w ∧ w.live = true ∧ follow v' event = some v') ∨
      (v' = v ∧ ∀ u, (u = none → v = none) → follow u event = some u) := by
  cases event with
  | snapshot turnId text status message steps question =>
    cases turnId with
    | none => exact Or.inr ⟨(Option.some.inj h).symm, fun _ _ => rfl⟩
    | some id => cases hall
  | delta turnId text => cases hdelta
  | done turnId text => cases hall
  | error turnId message => cases hall
  | state turnId status =>
    unfold follow at h
    dsimp only at h
    split at h
    · rename_i w
      split at h
      · rename_i hid
        split at h
        · rename_i hlive
          obtain rfl := Option.some.inj h
          exact Or.inl ⟨w, rfl, hlive, by simp [follow, hid, hlive]⟩
        · cases h
      · split at h
        · cases h
        · obtain rfl := Option.some.inj h
          exact Or.inl ⟨_, rfl, rfl, by simp [follow]⟩
    · obtain rfl := Option.some.inj h
      exact Or.inl ⟨_, rfl, rfl, by simp [follow]⟩
  | step turnId step =>
    obtain ⟨w, rfl, -, hlive, rfl⟩ := ofLive_eq_some h
    exact Or.inl ⟨w, rfl, hlive, h⟩
  | question turnId question =>
    obtain ⟨w, rfl, -, hlive, rfl⟩ := ofLive_eq_some h
    exact Or.inl ⟨w, rfl, hlive, h⟩
  | questionCleared turnId =>
    unfold follow at h
    dsimp only at h
    split at h
    · cases h
    · rename_i hthere
      obtain rfl := Option.some.inj h
      refine Or.inr ⟨rfl, fun u hu => ?_⟩
      have hne : u ≠ none := fun hnone => hthere (hu hnone)
      simp [follow, hne]

/-- Events without text leave a live turn as it is. -/
theorem textless_live {w : View} {v : Option View} {events : List RemoteEvent}
    (htext : ∀ event ∈ events, event.isDelta = false ∧ event.hasAll = false)
    (hlive : w.live = true) (h : Follows follow (some w) events v) : v = some w := by
  induction events with
  | nil => exact (follows_nil.mp h).symm
  | cons event events ih =>
    obtain ⟨next, hnext, hrest⟩ := follows_cons.mp h
    have hsame : next = some w := by
      obtain ⟨hdelta, hall⟩ := htext event List.mem_cons_self
      cases event with
      | state turnId status =>
        unfold follow at hnext
        simp only [hlive, if_true] at hnext
        split at hnext
        · exact (Option.some.inj hnext).symm
        · cases hnext
      | snapshot turnId text status message steps question =>
        cases turnId with
        | none => exact (Option.some.inj hnext).symm
        | some id => cases hall
      | delta turnId text => cases hdelta
      | done turnId text => cases hall
      | error turnId message => cases hall
      | step turnId step =>
        unfold follow at hnext
        obtain ⟨w', hw', -, -, rfl⟩ := ofLive_eq_some hnext
        exact hw'.symm
      | question turnId question =>
        unfold follow at hnext
        obtain ⟨w', hw', -, -, rfl⟩ := ofLive_eq_some hnext
        exact hw'.symm
      | questionCleared turnId => exact (Option.some.inj hnext).symm
    subst hsame
    exact ih (fun event' hmem => htext event' (List.mem_cons_of_mem _ hmem)) hrest

/-- Events without text can be read again where they lead to. -/
theorem textless_again {v v' : Option View} {events : List RemoteEvent}
    (htext : ∀ event ∈ events, event.isDelta = false ∧ event.hasAll = false)
    (h : Follows follow v events v') : Follows follow v' events v' := by
  induction events generalizing v with
  | nil => exact follows_nil.mpr rfl
  | cons event events ih =>
    obtain ⟨next, hnext, hrest⟩ := follows_cons.mp h
    obtain ⟨hdelta, hall⟩ := htext event List.mem_cons_self
    have hrestless : ∀ event' ∈ events, event'.isDelta = false ∧ event'.hasAll = false :=
      fun event' hmem => htext event' (List.mem_cons_of_mem _ hmem)
    refine follows_cons.mpr ⟨v', ?_, ih hrestless hrest⟩
    rcases textless_cases hdelta hall hnext with ⟨w, rfl, hlive, hagain⟩ | ⟨rfl, hanywhere⟩
    · rw [textless_live hrestless hlive hrest]
      exact hagain
    · refine hanywhere v' fun hnone => ?_
      rw [hnone] at hrest
      exact follows_to_none hrest

/-! ## What holds at every pace -/

/-- A stream whose next events make the page right again. -/
structure Guest.Reads (sessionId : String) (g : Guest) (r : Reader) (session : Session) : Prop where
  found : g.relay.sessions.lookup sessionId = some session
  own : session.tx.name = r.rx.channel
  within : r.rx.next ≤ session.tx.sent.length
  behind : r.lagged = true → r.pending = none
  recovers : r.lagged = false → Recovers follow Client.handle Client.Shows
    (r.pending.elim g.client g.client.handle) (session.tx.sent.drop r.rx.next)
    (session.turn.map Turn.view)

structure Guest.Right (sessionId : String) (g : Guest) : Prop where
  sound : g.relay.Sound
  fit : g.relay.Fit sessionId
  sent : Follows follow none (g.relay.sentOf sessionId) (g.relay.viewOf sessionId)
  blank : g.relay.viewOf sessionId = none → g.client = Client.new
  reader : ∀ r, g.reader = some r → ∃ session, g.Reads sessionId r session

namespace Guest

variable {sessionId : String} {g : Guest}

theorem new_right : Guest.new.Right sessionId :=
  ⟨Inner.new_sound, nofun, follows_nil.mpr rfl, fun _ => rfl, nofun⟩

/-- A client that is right whenever its relay goes on. -/
theorem Right.relay (h : g.Right sessionId) {relay : Inner} {events : List RemoteEvent}
    (hsound : relay.Sound) (hgoes : Inner.Goes g.relay relay sessionId events) :
    Guest.Right sessionId { g with relay := relay } := by
  refine ⟨hsound, hgoes.fit, ?_, fun hblank => h.blank ?_, fun r hr => ?_⟩
  · rw [hgoes.sent]
    exact follows_append.mpr ⟨_, h.sent, hgoes.view⟩
  · have hview := hgoes.view
    rw [hblank] at hview
    exact follows_to_none hview
  · obtain ⟨session, hreads⟩ := h.reader r hr
    obtain ⟨session', hfound, hname⟩ := hgoes.stays session hreads.found
    have hsent := hgoes.sent
    have hview := hgoes.view
    rw [Inner.sentOf_of_lookup hfound, Inner.sentOf_of_lookup hreads.found] at hsent
    rw [Inner.viewOf_of_lookup hfound, Inner.viewOf_of_lookup hreads.found] at hview
    have hwithin := hreads.within
    refine ⟨session', hfound, hname.trans hreads.own, ?_, hreads.behind, fun hlagged => ?_⟩
    · rw [hsent, List.length_append]
      omega
    · rw [hsent, List.drop_append_of_le_length hwithin]
      exact (hreads.recovers hlagged).sends hview

/-- A snapshot is shown as what there is to show. -/
theorem Right.snapshot (h : g.Right sessionId) {session : Session}
    (hfound : g.relay.sessions.lookup sessionId = some session) :
    Client.Shows (g.client.handle session.snapshot) (session.turn.map Turn.view) := by
  have hview := Inner.viewOf_of_lookup hfound
  cases hturn : session.turn with
  | none =>
    rw [hturn] at hview
    have hsnapshot : session.snapshot = .snapshot none "" none none [] none := by
      rw [Session.snapshot, hturn]
    rw [hsnapshot, h.blank hview]
    rfl
  | some turn =>
    obtain ⟨hmessage, n, -, hid⟩ := h.fit turn (by rw [Inner.turnOf, hfound]; exact hturn)
    have hfollow := Session.follow_snapshot none hturn
      (by rw [hid]; exact Inner.turnId_ne_empty sessionId n) hmessage
    refine whole_of_hasAll ?_ hfollow g.client
    rw [Session.snapshot, hturn]
    rfl

/-- No event leaves every page blank. -/
theorem not_whole_none (event : RemoteEvent) :
    ¬ Whole Client.handle Client.Shows event none := by
  intro h
  have hstray : Client.handle ⟨[], some ""⟩ event = Client.new := h ⟨[], some ""⟩
  have htranscript := congrArg Client.transcript hstray
  have hcurrent := congrArg Client.currentTurn hstray
  cases event with
  | snapshot turnId text status message steps question =>
    unfold Client.handle at htranscript hcurrent
    dsimp only at htranscript hcurrent
    split at hcurrent
    · cases hcurrent
    · rename_i id hid
      rw [hid] at htranscript
      dsimp only at htranscript
      split at htranscript <;> cases htranscript
  | delta turnId text => cases htranscript
  | done turnId text => cases htranscript
  | error turnId message => cases htranscript
  | state turnId status => cases htranscript
  | step turnId step => cases htranscript
  | question turnId question => cases htranscript
  | questionCleared turnId => cases htranscript

theorem blank_of_recovers {c : Client} {rest : List RemoteEvent}
    (h : Recovers follow Client.handle Client.Shows c rest none) : c = Client.new := by
  cases h with
  | shows v now follows =>
    obtain rfl := follows_to_none follows
    exact now
  | ahead before event after v split whole follows =>
    obtain rfl := follows_to_none follows
    exact absurd whole (not_whole_none event)

/-- After a read that leaves the relay alone. -/
theorem Right.reread (h : g.Right sessionId) {session : Session} {client : Client} (r : Reader)
    (hfound : g.relay.sessions.lookup sessionId = some session)
    (hreads : Reads sessionId { g with reader := some r, client := client } r session)
    (hblank : session.turn.map Turn.view = none → client = Client.new) :
    Right sessionId { g with reader := some r, client := client } := by
  refine ⟨h.sound, h.fit, h.sent, fun hview => hblank ?_, fun r' hr' => ?_⟩
  · rw [← Inner.viewOf_of_lookup hfound]
    exact hview
  · obtain rfl := Option.some.inj hr'
    exact ⟨session, hreads⟩

theorem Right.read (h : g.Right sessionId) {r : Reader} (hr : g.reader = some r)
    (hclean : Unmixed sessionId g .read) : (g.read sessionId r).Right sessionId := by
  obtain ⟨session, hreads⟩ := h.reader r hr
  have hfound := hreads.found
  have hblank : session.turn.map Turn.view = none → g.client = Client.new := by
    rw [← Inner.viewOf_of_lookup hfound]
    exact h.blank
  unfold Guest.read
  split
  · rename_i event hpending
    have hlagged : r.lagged = false := by
      rw [← Bool.not_eq_true]
      intro hlagged
      rw [hreads.behind hlagged] at hpending
      cases hpending
    have hrecovers := hreads.recovers hlagged
    rw [hpending] at hrecovers
    refine h.reread { r with pending := none } hfound
      ⟨hfound, hreads.own, hreads.within, fun _ => rfl, fun _ => hrecovers⟩ fun hnone => ?_
    rw [hnone] at hrecovers
    exact blank_of_recovers hrecovers
  · rename_i hpending
    split
    · rename_i hlagged
      rw [Inner.snapshot, hfound, Option.map_some, Option.map_some]
      refine h.reread _ hfound ⟨hfound, hreads.own, hreads.within, nofun, fun _ => ?_⟩ hblank
      have hsent := h.sent
      rw [Inner.sentOf_of_lookup hfound, Inner.viewOf_of_lookup hfound,
        ← List.take_append_drop r.rx.next session.tx.sent, follows_append] at hsent
      obtain ⟨v, -, hrest⟩ := hsent
      by_cases hall : ∃ event ∈ session.tx.sent.drop r.rx.next, event.hasAll = true
      · obtain ⟨event, hmem, hevent⟩ := hall
        obtain ⟨before, after, hsplit⟩ := List.append_of_mem hmem
        rw [hsplit] at hrest
        obtain ⟨u, -, hafter⟩ := follows_append.mp hrest
        obtain ⟨u', hu', hafter⟩ := follows_cons.mp hafter
        exact .ahead before event after u' hsplit (whole_of_hasAll hevent hu') hafter
      · have hdeltas := hclean r session hr hfound hpending hlagged
        refine .shows _ (h.snapshot hfound) (textless_again (fun event hmem => ⟨?_, ?_⟩) hrest)
        · rw [← Bool.not_eq_true]
          exact fun hdelta => hall (hdeltas event hmem hdelta)
        · rw [← Bool.not_eq_true]
          exact fun hevent => hall ⟨event, hmem, hevent⟩
    · rename_i hlagged
      rw [Bool.not_eq_true] at hlagged
      have hrecovers := hreads.recovers hlagged
      rw [hpending] at hrecovers
      rw [hfound, Option.filter_some, if_pos (by simpa using hreads.own)]
      dsimp only
      unfold Channel.recv
      by_cases hmissed : r.rx.next < session.tx.sent.length - channelCapacity
      · rw [if_pos hmissed]
        refine h.reread _ hfound ⟨hfound, hreads.own, ?_, fun _ => hpending, nofun⟩ hblank
        show session.tx.sent.length - channelCapacity ≤ session.tx.sent.length
        omega
      · rw [if_neg hmissed]
        cases hnext : session.tx.sent[r.rx.next]? with
        | none => exact h
        | some event =>
          obtain ⟨hlt, hget⟩ := List.getElem?_eq_some_iff.mp hnext
          rw [List.drop_eq_getElem_cons hlt, hget] at hrecovers
          have hread := hrecovers.reads fun v v' => Client.shows_handle event
          refine h.reread _ hfound ⟨hfound, hreads.own, hlt, fun _ => hpending, fun _ => ?_⟩
            fun hnone => ?_
          · rw [hpending]
            exact hread
          · rw [hnone] at hread
            exact blank_of_recovers hread

theorem subscribe_ok {inner entered : Inner} {now : ℕ} {rx : Receiver} {snapshot : RemoteEvent}
    (h : inner.subscribe sessionId now = (.ok (rx, snapshot), entered)) :
    ∃ session, entered.sessions.lookup sessionId = some session ∧
      rx = ⟨session.tx.name, session.tx.sent.length⟩ ∧ snapshot = session.snapshot := by
  unfold Inner.subscribe at h
  split at h
  · cases h
  · split at h
    · cases h
    · simp only [Prod.mk.injEq, Except.ok.injEq] at h
      obtain ⟨⟨hrx, hsnapshot⟩, hentered⟩ := h
      rw [← hentered]
      exact ⟨_, (lookup_insert_eq _ _ _ _).trans (if_pos rfl), hrx.symm, hsnapshot.symm⟩

theorem Right.opens (h : g.Right sessionId) (now : ℕ) :
    ((Move.openStream now).apply sessionId g).Right sessionId := by
  have hgoes := Inner.subscribe_goes h.fit sessionId now
  have hright := h.relay (h.sound.op (.subscribe sessionId now)) hgoes
  unfold Move.apply
  dsimp only
  split
  · rename_i rx snapshot entered hsubscribe
    rw [Op.apply, hsubscribe] at hright
    obtain ⟨session, hfound, rfl, rfl⟩ := subscribe_ok hsubscribe
    refine hright.reread _ hfound
      ⟨hfound, rfl, Nat.le_refl _, fun h => (by cases h), fun _ => ?_⟩ fun hnone => hright.blank ?_
    · rw [List.drop_length]
      exact .shows _ (hright.snapshot hfound) (follows_nil.mpr rfl)
    · rw [Inner.viewOf_of_lookup hfound]
      exact hnone
  · rename_i e entered hsubscribe
    rw [Op.apply, hsubscribe] at hright
    exact ⟨hright.sound, hright.fit, hright.sent, hright.blank, fun _ h => by cases h⟩

end Guest

theorem right_step {sessionId : String} {g : Guest} {move : Move} (h : g.Right sessionId)
    (hclean : Unmixed sessionId g move) : (move.apply sessionId g).Right sessionId := by
  cases move with
  | relay op =>
    obtain ⟨events, hgoes⟩ := op_goes h.sound h.fit op.2 hclean
    exact h.relay (h.sound.op op.1) hgoes
  | openStream now => exact h.opens now
  | read =>
    unfold Move.apply
    dsimp only
    split
    · rename_i r hr
      exact h.read hr hclean
    · exact h

/-- Whatever the pace, a page that has all events shows the turn as the relay has it. -/
theorem screen_shows_turn (sessionId : String) (moves : List Move)
    (h : EveryStep (Move.apply sessionId) Guest.new moves (Unmixed sessionId))
    (hcaught : (run (Move.apply sessionId) Guest.new moves).CaughtUp sessionId) :
    (run (Move.apply sessionId) Guest.new moves).ShowsTurn sessionId := by
  have hright := run_keeps (Guest.Right sessionId) (fun g move hg hm => right_step hg hm)
    Guest.new_right h
  obtain ⟨r, session, hr, hfound, hpending, hlagged, hnext⟩ := hcaught
  obtain ⟨session', hreads⟩ := hright.reader r hr
  obtain rfl := Option.some.inj (hfound.symm.trans hreads.found)
  have hrecovers := hreads.recovers hlagged
  rw [hpending, hnext, List.drop_length] at hrecovers
  intro turn hturn
  have hview := Inner.viewOf_of_lookup hfound
  rw [Inner.viewOf, hturn] at hview
  have hshows := hrecovers.done
  rw [← hview] at hshows
  exact hshows.shown

theorem caughtUp_of {sessionId : String} {g : Guest} (count : ℕ)
    (hreader : g.reader.map (fun r => (r.pending, r.lagged, r.rx.next)) = some (none, false, count))
    (hsent : (g.relay.sessions.lookup sessionId).map (fun s => s.tx.sent.length) = some count) :
    g.CaughtUp sessionId := by
  obtain ⟨r, hr, hat⟩ := Option.map_eq_some_iff.mp hreader
  obtain ⟨session, hsession, hcount⟩ := Option.map_eq_some_iff.mp hsent
  simp only [Prod.mk.injEq] at hat
  exact ⟨r, session, hr, hsession, hat.1, hat.2.1, hat.2.2.trans hcount.symm⟩

/-- A stream that was not told of missed events mixes nothing. -/
theorem unmixed_read {sessionId : String} {g : Guest}
    (h : g.reader.all (fun r => !r.lagged) = true) : Unmixed sessionId g .read := by
  intro r session hr _ _ hlagged
  rw [hr, Option.all_some, hlagged] at h
  cases h

/-- A turn that is written, and fails, as a page reads. -/
def readAlong : List Move :=
  [.openStream 0, .read, .relay ⟨.call (.beginTurn "s" "hi" none 0), rfl⟩,
    .relay ⟨.call (.pushText "s#0" "a"), rfl⟩, .read, .relay ⟨.call (.fail "s#0" "lost" 1), rfl⟩,
    .read, .read]

theorem screen_shows_turn_failed :
    (run (Move.apply "s") Guest.new readAlong).client.shown "s#0" = some "lost" := by
  refine screen_shows_turn "s" readAlong ?_ ?_ ⟨"s#0", "a", .failed, some "lost", [], none⟩ ?_
  · simp only [readAlong, everyStep_cons]
    refine ⟨trivial, unmixed_read ?_, trivial, trivial, unmixed_read ?_, fun _ => ?_,
      unmixed_read ?_, unmixed_read ?_, everyStep_nil _ _⟩
    all_goals decide +kernel
  · exact caughtUp_of 3 (by decide +kernel) (by decide +kernel)
  · decide +kernel

/-- A page that misses the event before a delta. The snapshot it takes has the delta's text, and the
delta is read after it. -/
def fallsBehind : List Move :=
  [.openStream 0, .read, .relay ⟨.call (.beginTurn "s" "hi" none 0), rfl⟩,
    .relay ⟨.call (.pushText "s#0" "a"), rfl⟩] ++
    List.replicate 255 (.relay ⟨.call (.clearQuestion "s#0"), rfl⟩) ++ List.replicate 259 .read

set_option maxRecDepth 10000 in
/-- The page shows the text twice. -/
theorem delta_read_again :
    ¬ ∀ sessionId moves, (run (Move.apply sessionId) Guest.new moves).CaughtUp sessionId →
      (run (Move.apply sessionId) Guest.new moves).ShowsTurn sessionId := by
  intro h
  have hshown := h "s" fallsBehind (caughtUp_of 257 (by decide +kernel) (by decide +kernel))
    ⟨"s#0", "a", .running, none, [], none⟩ (by decide +kernel)
  have htwice : (run (Move.apply "s") Guest.new fallsBehind).client.shown "s#0" = some "aa" := by
    decide +kernel
  rw [htwice] at hshown
  exact absurd hshown (by decide)

end Haruspex.Relay
