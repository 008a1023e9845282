import Haruspex.Library.Runs
import Haruspex.Relay.Model

/-! The turns of the relay: which are in flight, and what a turn that has ended can still be asked. -/
namespace Haruspex.Relay
open KeyedMap Runs
set_option autoImplicit false

/-! ## Ids of turns -/

theorem hash_not_mem {sessionId : String} (h : validSessionId sessionId = true) :
    '#' ∉ sessionId.toList := by
  simp only [validSessionId, Bool.and_eq_true, List.all_eq_true] at h
  intro hmem
  exact absurd (h.2 '#' hmem) (by decide)

/-- A turn's id tells its session. -/
theorem sessionId_of_turnId {a b : String} {m n : ℕ} (ha : validSessionId a = true)
    (hb : validSessionId b = true) (h : Inner.turnId a m = Inner.turnId b n) : a = b := by
  have hfront (id : String) (k : ℕ) (hid : validSessionId id = true) :
      (Inner.turnId id k).toList.takeWhile (fun c => c ≠ '#') = id.toList := by
    rw [Inner.turnId, String.toList_append, String.toList_append, List.append_assoc,
      List.takeWhile_append_of_pos]
    · simp
    · intro c hc
      simp only [decide_eq_true_eq]
      rintro rfl
      exact hash_not_mem hid hc
  have hlist := congrArg (fun id : String => id.toList.takeWhile (fun c => c ≠ '#')) h
  simp only [hfront a m ha, hfront b n hb] at hlist
  exact String.toList_inj.mp hlist

namespace Inner

variable {inner : Inner} {sessionId : String}

/-! ## The turn of each session -/

def turnOf (inner : Inner) (sessionId : String) : Option Turn :=
  (inner.sessions.lookup sessionId).bind Session.turn

theorem turnOf_put (inner : Inner) (sessionId : String) (session : Session) (other : String) :
    (inner.put sessionId session).turnOf other =
      if other = sessionId then session.turn else inner.turnOf other := by
  rw [turnOf, put, lookup_insert_eq]
  split
  · rfl
  · rfl

theorem turnOf_entry (inner : Inner) (sessionId : String) (now : ℕ) (other : String) :
    (inner.entry sessionId now).2.turnOf other = inner.turnOf other ∧
      (inner.entry sessionId now).1.turn = inner.turnOf sessionId ∧
      (inner.entry sessionId now).2.turns = inner.turns := by
  unfold entry
  split
  · rename_i session hfound
    exact ⟨rfl, by rw [turnOf, hfound]; rfl, rfl⟩
  · rename_i hfound
    refine ⟨?_, by rw [turnOf, hfound]; rfl, rfl⟩
    rw [turnOf, turnOf]
    dsimp only
    rw [lookup_insert_eq]
    split
    · rename_i hsame
      rw [hsame, hfound]
      rfl
    · rfl

theorem turnMut_ok {turnId : String} {session : Session} {turn : Turn} :
    inner.turnMut turnId = .ok (sessionId, session, turn) ↔
      inner.turns.lookup turnId = some sessionId ∧ inner.sessions.lookup sessionId = some session ∧
        session.turn = some turn ∧ turn.id = turnId := by
  unfold turnMut
  constructor
  · intro h
    split at h
    · cases h
    · rename_i sessionId' hmapped
      split at h
      · cases h
      · rename_i session' hsession
        split at h
        · rename_i turn' hturn
          split at h
          · rename_i hid
            cases h
            exact ⟨hmapped, hsession, hturn, hid⟩
          · cases h
        · cases h
  · rintro ⟨hmapped, hsession, hturn, hid⟩
    simp [hmapped, hsession, hturn, hid]

/-- The id of the turn a session has in flight. -/
def live (inner : Inner) (sessionId : String) : Option String :=
  ((inner.turnOf sessionId).filter (fun t => t.status.inFlight)).map Turn.id

theorem live_eq_some {id : String} : inner.live sessionId = some id ↔
    ∃ turn, inner.turnOf sessionId = some turn ∧ turn.status.inFlight = true ∧ turn.id = id := by
  simp [live, Option.map_eq_some_iff, Option.filter_eq_some_iff, and_assoc]

theorem live_of_turnOf {other : Inner} (h : other.turnOf sessionId = inner.turnOf sessionId) :
    other.live sessionId = inner.live sessionId := by
  rw [live, live, h]

/-! ## What must hold -/

/-- The map of turns has each turn in flight under its session, and no other. -/
def Mapped (inner : Inner) : Prop :=
  ∀ id sessionId, inner.turns.lookup id = some sessionId ↔ inner.live sessionId = some id

/-- Each turn's id was made for its session. -/
def Own (inner : Inner) : Prop :=
  ∀ sessionId turn, inner.turnOf sessionId = some turn →
    validSessionId sessionId = true ∧ ∃ n, turn.id = turnId sessionId n

structure Sound (inner : Inner) : Prop where
  mapped : inner.Mapped
  own : inner.Own

theorem new_sound : Inner.new.Sound :=
  ⟨fun _ _ => ⟨nofun, nofun⟩, nofun⟩

theorem Own.unique (h : inner.Own) {a b : String} {turn turn' : Turn}
    (ha : inner.turnOf a = some turn) (hb : inner.turnOf b = some turn') (hid : turn.id = turn'.id) :
    a = b := by
  obtain ⟨hvalid, m, hm⟩ := h a turn ha
  obtain ⟨hvalid', n, hn⟩ := h b turn' hb
  exact sessionId_of_turnId hvalid hvalid' (by rw [← hm, ← hn, hid])

theorem Sound.congr {inner' : Inner} (h : inner.Sound)
    (hturns : ∀ id, inner'.turns.lookup id = inner.turns.lookup id)
    (hlive : ∀ sessionId, inner'.live sessionId = inner.live sessionId)
    (hids : ∀ sessionId, (inner'.turnOf sessionId).map Turn.id = (inner.turnOf sessionId).map Turn.id) :
    inner'.Sound := by
  refine ⟨fun id sessionId => ?_, fun sessionId turn hturn => ?_⟩
  · rw [hturns, hlive]
    exact h.mapped id sessionId
  · have hid := hids sessionId
    rw [hturn] at hid
    obtain ⟨turn', hturn', hsame⟩ := Option.map_eq_some_iff.mp hid.symm
    rw [← hsame]
    exact h.own sessionId turn' hturn'

/-- A session put back with a turn of the same id, in flight just as before. -/
theorem Sound.put (h : inner.Sound) {session : Session}
    (hlive : (session.turn.filter (fun t => t.status.inFlight)).map Turn.id = inner.live sessionId)
    (hid : session.turn.map Turn.id = (inner.turnOf sessionId).map Turn.id) :
    (inner.put sessionId session).Sound := by
  refine h.congr (fun _ => rfl) (fun other => ?_) (fun other => ?_)
  · rw [live, turnOf_put]
    split
    · rename_i hsame
      rw [hsame]
      exact hlive
    · rfl
  · rw [turnOf_put]
    split
    · rename_i hsame
      rw [hsame]
      exact hid
    · rfl

theorem Sound.entry (h : inner.Sound) (sessionId : String) (now : ℕ) :
    (inner.entry sessionId now).2.Sound :=
  h.congr (fun _ => by rw [(turnOf_entry inner sessionId now sessionId).2.2])
    (fun other => live_of_turnOf (turnOf_entry inner sessionId now other).1)
    (fun other => by rw [(turnOf_entry inner sessionId now other).1])

theorem change_cases (inner : Inner) (turnId : String) (f : Session → Turn → Session) :
    (∃ e, inner.turnMut turnId = .error e ∧ inner.change turnId f = (.error e, inner)) ∨
      ∃ sessionId session turn, inner.turnMut turnId = .ok (sessionId, session, turn) ∧
        inner.change turnId f = (.ok (), inner.put sessionId (f session turn)) := by
  unfold change
  cases h : inner.turnMut turnId with
  | error e => exact Or.inl ⟨e, rfl, rfl⟩
  | ok found => exact Or.inr ⟨found.1, found.2.1, found.2.2, rfl, rfl⟩

/-- What a live turn keeps in a change. -/
def Keeps (f : Session → Turn → Session) : Prop :=
  ∀ session turn, session.turn = some turn → turn.status.inFlight = true →
    ∃ turn', (f session turn).turn = some turn' ∧ turn'.id = turn.id ∧
      turn'.status.inFlight = true

theorem Sound.turnMut_live (h : inner.Sound) {turnId : String} {session : Session} {turn : Turn}
    (hfound : inner.turnMut turnId = .ok (sessionId, session, turn)) :
    inner.turnOf sessionId = some turn ∧ turn.id = turnId ∧ turn.status.inFlight = true := by
  obtain ⟨hmapped, hsession, hturn, hid⟩ := turnMut_ok.mp hfound
  have hof : inner.turnOf sessionId = some turn := by
    rw [turnOf, hsession]
    exact hturn
  obtain ⟨turn', hturn', hflight, -⟩ := live_eq_some.mp ((h.mapped turnId sessionId).mp hmapped)
  rw [hof, Option.some_inj] at hturn'
  exact ⟨hof, hid, by rw [hturn']; exact hflight⟩

theorem Sound.change (h : inner.Sound) {f : Session → Turn → Session} (hf : Keeps f)
    (turnId : String) : (inner.change turnId f).2.Sound := by
  rcases change_cases inner turnId f with ⟨e, -, hchange⟩ |
    ⟨sessionId, session, turn, hfound, hchange⟩
  · rw [hchange]
    exact h
  · obtain ⟨hof, hid, hflight⟩ := h.turnMut_live hfound
    obtain ⟨-, -, hturn, -⟩ := turnMut_ok.mp hfound
    obtain ⟨turn', hturn', hid', hflight'⟩ := hf session turn hturn hflight
    rw [hchange]
    refine h.put ?_ ?_
    · rw [hturn', live, hof, Option.filter_some, Option.filter_some, if_pos hflight', if_pos hflight,
        Option.map_some, Option.map_some, hid']
    · rw [hturn', hof, Option.map_some, Option.map_some, hid']

/-! ## Turns that begin and end -/

/-- A turn that begins, in a session that has none in flight. -/
theorem Sound.begin (h : inner.Sound) (hvalid : validSessionId sessionId = true)
    (hidle : inner.live sessionId = none) {turn : Turn} {n : ℕ} (hid : turn.id = turnId sessionId n)
    (hflight : turn.status.inFlight = true) {inner' : Inner}
    (hof : ∀ other, inner'.turnOf other =
      if other = sessionId then some turn else inner.turnOf other)
    (hturns : inner'.turns = inner.turns.insert turn.id sessionId) : inner'.Sound := by
  have hlive (other : String) : inner'.live other =
      if other = sessionId then some turn.id else inner.live other := by
    rw [live, hof]
    split
    · rw [Option.filter_some, if_pos hflight]
      rfl
    · rfl
  refine ⟨fun id other => ?_, fun other turn' hother => ?_⟩
  · rw [hturns, hlive, lookup_insert_eq]
    by_cases hsame : id = turn.id
    · rw [if_pos hsame]
      by_cases hself : other = sessionId
      · rw [if_pos hself, hself, hsame]
        exact ⟨fun _ => rfl, fun _ => rfl⟩
      · rw [if_neg hself]
        refine ⟨fun heq => absurd (Option.some.inj heq).symm hself, fun hlive' => ?_⟩
        obtain ⟨turn', hturn', -, hid'⟩ := live_eq_some.mp hlive'
        obtain ⟨hvalid', m, hm⟩ := h.own other turn' hturn'
        refine absurd (sessionId_of_turnId (m := m) (n := n) hvalid' hvalid ?_) hself
        rw [← hm, ← hid, hid', hsame]
    · rw [if_neg hsame, h.mapped id other]
      by_cases hself : other = sessionId
      · rw [if_pos hself, hself, hidle]
        exact ⟨nofun, fun heq => absurd (Option.some.inj heq).symm hsame⟩
      · rw [if_neg hself]
  · rw [hof] at hother
    split at hother
    · rename_i hself
      obtain rfl := Option.some.inj hother
      rw [hself]
      exact ⟨hvalid, n, hid⟩
    · exact h.own other turn' hother

/-- The state after a prompt was accepted. -/
def begun (inner : Inner) (sessionId : String) (recent : List ℕ) (now : ℕ) : Inner :=
  let id := turnId sessionId inner.counter
  let entered := { inner with recentTurns := recent, counter := inner.counter + 1 }.entry
    sessionId now
  { entered.2.put sessionId (entered.1.beginTurn id now) with
    recentTurns := entered.2.recentTurns ++ [now]
    turns := entered.2.turns.insert id sessionId }

/-- A session that is busy was there before. -/
theorem entry_busy {now : ℕ} (h : (inner.entry sessionId now).1.inFlight = true) :
    (inner.entry sessionId now).2 = inner := by
  unfold entry at h ⊢
  split
  · rfl
  · rename_i hfound
    rw [hfound] at h
    cases h

theorem live_of_entry {now : ℕ} (h : (inner.entry sessionId now).1.inFlight = false) :
    inner.live sessionId = none := by
  rw [Session.inFlight, (turnOf_entry inner sessionId now sessionId).2.1] at h
  rw [live, Option.map_eq_none_iff, Option.filter_eq_none_iff]
  intro turn hturn hflight
  rw [hturn, Option.any_some, hflight] at h
  cases h

theorem beginTurn_cases (inner : Inner) (sessionId message : String) (clientLabel : Option String)
    (now : ℕ) :
    (∃ e recent counter, inner.beginTurn sessionId message clientLabel now =
      (.error e, { inner with recentTurns := recent, counter := counter })) ∨
    ∃ recent request, validSessionId sessionId = true ∧ inner.live sessionId = none ∧
      inner.beginTurn sessionId message clientLabel now =
        (.ok request, inner.begun sessionId recent now) := by
  unfold beginTurn
  split
  · exact Or.inl ⟨_, inner.recentTurns, inner.counter, rfl⟩
  · rename_i hvalid
    dsimp only
    split
    · exact Or.inl ⟨_, _, inner.counter, rfl⟩
    · split
      · exact Or.inl ⟨_, _, inner.counter, rfl⟩
      · split
        · rename_i hbusy
          left
          rw [entry_busy hbusy]
          exact ⟨_, _, _, rfl⟩
        · rename_i hidle
          rw [Bool.not_eq_true] at hidle
          have hlive := live_of_entry hidle
          exact Or.inr ⟨inner.recentTurns.filter (fun t => now - t < seconds 60), _,
            by simpa using hvalid, hlive, rfl⟩

theorem turnOf_begun (inner : Inner) (sessionId : String) (recent : List ℕ) (now : ℕ)
    (other : String) : (inner.begun sessionId recent now).turnOf other =
      if other = sessionId then some (Turn.new (turnId sessionId inner.counter))
      else inner.turnOf other := by
  have hentry := turnOf_entry { inner with recentTurns := recent, counter := inner.counter + 1 }
    sessionId now other
  have hput := turnOf_put
    ({ inner with recentTurns := recent, counter := inner.counter + 1 }.entry sessionId now).2
    sessionId
  exact (hput _ other).trans (by rw [hentry.1]; rfl)

theorem turns_begun (inner : Inner) (sessionId : String) (recent : List ℕ) (now : ℕ) :
    (inner.begun sessionId recent now).turns =
      inner.turns.insert (turnId sessionId inner.counter) sessionId := by
  have hentry := (turnOf_entry { inner with recentTurns := recent, counter := inner.counter + 1 }
    sessionId now sessionId).2.2
  show AList.insert _ _ (Inner.entry _ _ _).2.turns = _
  rw [hentry]

theorem Sound.beginTurn (h : inner.Sound) (sessionId message : String) (clientLabel : Option String)
    (now : ℕ) : (inner.beginTurn sessionId message clientLabel now).2.Sound := by
  rcases beginTurn_cases inner sessionId message clientLabel now with
    ⟨e, recent, counter, hbegin⟩ | ⟨recent, request, hvalid, hidle, hbegin⟩
  · rw [hbegin]
    exact h.congr (fun _ => rfl) (fun _ => rfl) (fun _ => rfl)
  · rw [hbegin]
    exact h.begin hvalid hidle rfl rfl (turnOf_begun inner sessionId recent now)
      (turns_begun inner sessionId recent now)

/-- A turn in flight that ends. -/
theorem Sound.ends (h : inner.Sound) {turn turn' : Turn} (hof : inner.turnOf sessionId = some turn)
    (hflight : turn.status.inFlight = true) {session : Session} (hturn : session.turn = some turn')
    (hid : turn'.id = turn.id) (hended : turn'.status.inFlight = false) :
    ({ inner with turns := inner.turns.erase turn.id }.put sessionId session).Sound := by
  have hold : inner.live sessionId = some turn.id := live_eq_some.mpr ⟨turn, hof, hflight, rfl⟩
  have hnew (other : String) :
      ({ inner with turns := inner.turns.erase turn.id }.put sessionId session).turnOf other =
        if other = sessionId then some turn' else inner.turnOf other := by
    rw [turnOf_put, hturn]
    rfl
  refine ⟨fun id other => ?_, fun other turn'' hother => ?_⟩
  · show (inner.turns.erase turn.id).lookup id = some other ↔ _
    rw [lookup_erase_eq, live, hnew]
    by_cases hself : other = sessionId
    · have hnone : (some turn').filter (fun t => t.status.inFlight) = none := by
        rw [Option.filter_some, hended]
        rfl
      rw [if_pos hself, hself, hnone]
      refine ⟨fun hmapped => ?_, nofun⟩
      split at hmapped
      · cases hmapped
      · rename_i hne
        have hsame := (h.mapped id sessionId).mp hmapped
        rw [hold] at hsame
        exact absurd (Option.some.inj hsame).symm hne
    · rw [if_neg hself, ← live, ← h.mapped id other]
      split
      · rename_i hsame
        refine ⟨nofun, fun hmapped => ?_⟩
        rw [hsame, (h.mapped turn.id sessionId).mpr hold] at hmapped
        exact absurd (Option.some.inj hmapped).symm hself
      · exact Iff.rfl
  · rw [hnew] at hother
    split at hother
    · rename_i hself
      obtain rfl := Option.some.inj hother
      rw [hself, hid]
      exact h.own sessionId turn hof
    · exact h.own other turn'' hother

theorem Sound.not_mapped (h : inner.Sound) {turnId : String} {e : RelayError}
    (hfound : inner.turnMut turnId = .error e) : inner.turns.lookup turnId = none := by
  cases hmapped : inner.turns.lookup turnId with
  | none => rfl
  | some sessionId =>
    obtain ⟨turn, hturn, -, hid⟩ := live_eq_some.mp ((h.mapped turnId sessionId).mp hmapped)
    obtain ⟨session, hsession, hof⟩ := Option.bind_eq_some_iff.mp hturn
    rw [turnMut_ok.mpr ⟨hmapped, hsession, hof, hid⟩] at hfound
    cases hfound

theorem terminate_cases (inner : Inner) (turnId : String) (status : TurnStatus) (text : String)
    (message : Option String) (now : ℕ) :
    (∃ e, inner.turnMut turnId = .error e ∧ inner.terminate turnId status text message now =
      (.error e, { inner with turns := inner.turns.erase turnId })) ∨
    ∃ sessionId session turn, inner.turnMut turnId = .ok (sessionId, session, turn) ∧
      inner.terminate turnId status text message now =
        (.ok (), { inner with turns := inner.turns.erase turnId }.put sessionId
          (Session.terminate turnId status text message now session turn)) := by
  unfold terminate
  cases hfound : inner.turnMut turnId with
  | error e => exact Or.inl ⟨e, rfl, rfl⟩
  | ok found => exact Or.inr ⟨found.1, found.2.1, found.2.2, rfl, rfl⟩

theorem Sound.terminate (h : inner.Sound) (turnId : String) {status : TurnStatus}
    (hstatus : status.inFlight = false) (text : String) (message : Option String) (now : ℕ) :
    (inner.terminate turnId status text message now).2.Sound := by
  rcases terminate_cases inner turnId status text message now with ⟨e, hfound, hend⟩ |
    ⟨sessionId, session, turn, hfound, hend⟩
  · rw [hend]
    refine h.congr (fun id => ?_) (fun _ => rfl) (fun _ => rfl)
    rw [lookup_erase_eq]
    split
    · rename_i hsame
      rw [hsame, h.not_mapped hfound]
    · rfl
  · obtain ⟨hof, rfl, hflight⟩ := h.turnMut_live hfound
    rw [hend]
    exact h.ends hof hflight rfl rfl hstatus

/-! ## Answers -/

theorem answer_cases (inner : Inner) (sessionId : String) (answer : Answer) :
    inner.answer sessionId answer = (.error .unknownTurn, inner) ∨
    ∃ session turn pending, inner.sessions.lookup sessionId = some session ∧
      session.turn = some turn ∧ turn.question = some pending ∧ pending.id = answer.questionId ∧
      inner.answer sessionId answer =
        (.ok turn.id, inner.put sessionId (Session.clearQuestion turn.id session turn)) := by
  unfold Inner.answer
  split
  · exact Or.inl rfl
  · rename_i session hsession
    split
    · exact Or.inl rfl
    · rename_i turn hturn
      split
      · exact Or.inl rfl
      · rename_i pending hpending
        split
        · exact Or.inl rfl
        · rename_i hid
          exact Or.inr ⟨session, turn, pending, hsession, hturn, hpending, not_not.mp hid, rfl⟩

theorem Sound.answer (h : inner.Sound) (sessionId : String) (answer : Answer) :
    (inner.answer sessionId answer).2.Sound := by
  rcases answer_cases inner sessionId answer with hanswer |
    ⟨session, turn, pending, hsession, hturn, -, -, hanswer⟩
  · rw [hanswer]
    exact h
  · have hof : inner.turnOf sessionId = some turn := by
      rw [turnOf, hsession]
      exact hturn
    rw [hanswer]
    refine h.put ?_ ?_
    · rw [live, hof]
      cases hflight : turn.status.inFlight with
      | true => simp [Session.clearQuestion, Session.send, Option.filter_some, hflight]
      | false => simp [Session.clearQuestion, Session.send, Option.filter_some, hflight]
    · rw [hof]
      rfl

/-! ## Sessions that go -/

/-- What is left when only some sessions stay. -/
structure Drops (inner inner' : Inner) (kept : String → Bool) : Prop where
  sessions : ∀ sessionId, kept sessionId = false → inner'.sessions.lookup sessionId = none
  turnOf : ∀ sessionId, kept sessionId = true → inner'.turnOf sessionId = inner.turnOf sessionId
  turns : ∀ id, inner'.turns.lookup id = (inner.turns.lookup id).filter kept

theorem Sound.drops (h : inner.Sound) {inner' : Inner} {kept : String → Bool}
    (hdrop : Drops inner inner' kept) : inner'.Sound := by
  have hof (sessionId : String) : inner'.turnOf sessionId =
      if kept sessionId then inner.turnOf sessionId else none := by
    cases hkept : kept sessionId with
    | true => exact hdrop.turnOf sessionId hkept
    | false =>
      rw [turnOf, hdrop.sessions sessionId hkept]
      rfl
  refine ⟨fun id sessionId => ?_, fun sessionId turn hturn => ?_⟩
  · show _ ↔ ((inner'.turnOf sessionId).filter _).map _ = some id
    rw [hdrop.turns, Option.filter_eq_some_iff, h.mapped, live, hof]
    cases hkept : kept sessionId with
    | true => exact ⟨fun hlive => hlive.1, fun hlive => ⟨hlive, rfl⟩⟩
    | false => exact ⟨fun hlive => absurd hlive.2 (by decide), nofun⟩
  · rw [hof] at hturn
    split at hturn
    · exact h.own sessionId turn hturn
    · cases hturn

theorem lookup_reap (inner : Inner) (now : ℕ) (sessionId : String) :
    (inner.reap now).2.sessions.lookup sessionId =
      (inner.sessions.lookup sessionId).bind (fun session =>
        if 0 < session.subscribers then some { session with lastSeen := now }
        else if now - session.lastSeen ≤ idleTimeout then some session else none) := by
  rw [reap]
  dsimp only
  rw [lookup_keep, lookup_mapValues]
  cases inner.sessions.lookup sessionId with
  | none => rfl
  | some session =>
    rw [Option.map_some, Option.filter_some, Option.bind_some]
    by_cases hcount : 0 < session.subscribers
    · simp [hcount]
    · simp [hcount]

theorem reap_drops (inner : Inner) (now : ℕ) :
    Drops inner (inner.reap now).2 (fun sessionId =>
      ((inner.reap now).2.sessions.lookup sessionId).isSome) := by
  refine ⟨fun sessionId hkept => ?_, fun sessionId hkept => ?_, fun id => lookup_keep _ _ _⟩
  · rw [← Option.not_isSome_iff_eq_none, hkept]
    decide
  · obtain ⟨session', hsession'⟩ := Option.isSome_iff_exists.mp hkept
    have hold := hsession'
    rw [lookup_reap, Option.bind_eq_some_iff] at hold
    obtain ⟨session, hsession, hstays⟩ := hold
    rw [turnOf, turnOf, hsession', hsession, Option.bind_some, Option.bind_some]
    split at hstays
    · rw [← Option.some.inj hstays]
    · split at hstays
      · rw [Option.some.inj hstays]
      · cases hstays

theorem disconnect_drops (inner : Inner) (sessionId : String) :
    ∃ kept, Drops inner (inner.disconnect sessionId).2 kept := by
  unfold disconnect
  split
  · exact ⟨fun _ => true, nofun, fun _ _ => rfl, fun id => by cases inner.turns.lookup id <;> rfl⟩
  · refine ⟨fun other => other ≠ sessionId, fun other hkept => ?_, fun other hkept => ?_,
      fun id => ?_⟩
    · simp only [ne_eq, decide_not, Bool.not_eq_false', decide_eq_true_eq] at hkept
      rw [lookup_erase_eq, if_pos hkept]
    · simp only [ne_eq, decide_not, Bool.not_eq_true', decide_eq_false_iff_not] at hkept
      rw [turnOf, lookup_erase_eq, if_neg hkept]
      rfl
    · exact lookup_keep _ _ _

theorem clear_drops (inner : Inner) : Drops inner inner.clear (fun _ => false) :=
  ⟨fun _ _ => rfl, nofun, fun id => by cases inner.turns.lookup id <;> rfl⟩

end Inner

end Haruspex.Relay
