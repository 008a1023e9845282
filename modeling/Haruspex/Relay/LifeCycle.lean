import Haruspex.Relay.Turns

/-! Whole runs of the relay: what holds of turns however its operations come, and what a turn that has
ended is still asked. -/
namespace Haruspex.Relay
open KeyedMap Runs
set_option autoImplicit false

/-! ## Operations -/

inductive Op where
  | subscribe (sessionId : String) (now : ℕ)
  | unsubscribe (sessionId : String) (now : ℕ)
  | call (call : Call)

def Op.apply (op : Op) (inner : Inner) : Inner :=
  match op with
  | .subscribe sessionId now => (inner.subscribe sessionId now).2
  | .unsubscribe sessionId now => inner.unsubscribe sessionId now
  | .call it => it.apply inner

def okFor (turnId : String) : Except RelayError Unit → Option String
  | .ok _ => some turnId
  | .error _ => none

/-- The turn an operation is accepted for. -/
def Op.acceptedFor (op : Op) (inner : Inner) : Option String :=
  match op with
  | .call (.pushText turnId fullText) => okFor turnId (inner.pushText turnId fullText).1
  | .call (.pushStep turnId step) => okFor turnId (inner.pushStep turnId step).1
  | .call (.ask turnId question) => okFor turnId (inner.ask turnId question).1
  | .call (.answer sessionId reply) => (inner.answer sessionId reply).1.toOption
  | .call (.clearQuestion turnId) => okFor turnId (inner.clearQuestion turnId).1
  | .call (.setStatus turnId status) => okFor turnId (inner.setStatus turnId status).1
  | .call (.finish turnId text now) => okFor turnId (inner.finish turnId text now).1
  | .call (.fail turnId message now) => okFor turnId (inner.fail turnId message now).1
  | _ => none

variable {inner : Inner}

/-! ## What each operation does to the turn of a session -/

/-- A question put by an operation, or what was asked before. -/
def AsksOnly (op : Op) (turnId : String) (before after : Option Question) : Prop :=
  after = before ∨ after = none ∨ ∃ q, op = .call (.ask turnId q) ∧ after = some q

inductive Touch (op : Op) (inner : Inner) (sessionId : String) : Prop where
  | same (h : (op.apply inner).turnOf sessionId = inner.turnOf sessionId)
  | gone (h : (op.apply inner).sessions.lookup sessionId = none)
  | begun (message : String) (clientLabel : Option String) (now : ℕ) (request : PromptRequest)
      (hop : op = .call (.beginTurn sessionId message clientLabel now))
      (hok : (inner.beginTurn sessionId message clientLabel now).1 = .ok request)
      (h : (op.apply inner).turnOf sessionId =
        some (Turn.new (Inner.turnId sessionId inner.counter)))
  | changed (turn turn' : Turn) (hturn : inner.turnOf sessionId = some turn)
      (haccepted : op.acceptedFor inner = some turn.id)
      (h : (op.apply inner).turnOf sessionId = some turn') (hid : turn'.id = turn.id)
      (hquestion : AsksOnly op turn.id turn.question turn'.question)

/-- What a change does to a live turn. -/
structure Changes (op : Op) (turnId : String) (f : Session → Turn → Session) : Prop where
  keeps : Inner.Keeps f
  asks : ∀ session turn, session.turn = some turn → ∃ turn', (f session turn).turn = some turn' ∧
    AsksOnly op turnId turn.question turn'.question

theorem pushText_changes (op : Op) (turnId fullText : String) :
    Changes op turnId (Session.pushText turnId fullText) := by
  have hturn (session : Session) (turn : Turn) (h : session.turn = some turn) :
      ∃ turn', (Session.pushText turnId fullText session turn).turn = some turn' ∧
        turn'.id = turn.id ∧ (turn.status.inFlight = true → turn'.status.inFlight = true) ∧
        turn'.question = turn.question := by
    unfold Session.pushText
    split
    · exact ⟨turn, h, rfl, id, rfl⟩
    · split
      · refine ⟨_, rfl, rfl, fun hflight => ?_, rfl⟩
        dsimp only
        split
        · rfl
        · exact hflight
      · exact ⟨_, rfl, rfl, id, rfl⟩
  refine ⟨fun session turn h hflight => ?_, fun session turn h => ?_⟩
  · obtain ⟨turn', h', hid, hflight', -⟩ := hturn session turn h
    exact ⟨turn', h', hid, hflight' hflight⟩
  · obtain ⟨turn', h', -, -, hquestion⟩ := hturn session turn h
    exact ⟨turn', h', Or.inl hquestion⟩

theorem pushStep_changes (op : Op) (turnId : String) (step : Step) :
    Changes op turnId (Session.pushStep turnId step) :=
  ⟨fun _ _ _ hflight => ⟨_, rfl, rfl, hflight⟩, fun _ _ _ => ⟨_, rfl, Or.inl rfl⟩⟩

theorem ask_changes (turnId : String) (question : Question) :
    Changes (.call (.ask turnId question)) turnId (Session.ask turnId question) :=
  ⟨fun _ _ _ hflight => ⟨_, rfl, rfl, hflight⟩,
    fun _ _ _ => ⟨_, rfl, Or.inr (Or.inr ⟨question, rfl, rfl⟩)⟩⟩

theorem clearQuestion_changes (op : Op) (turnId : String) :
    Changes op turnId (Session.clearQuestion turnId) :=
  ⟨fun _ _ _ hflight => ⟨_, rfl, rfl, hflight⟩, fun _ _ _ => ⟨_, rfl, Or.inr (Or.inl rfl)⟩⟩

theorem setStatus_changes (op : Op) (turnId : String)
    (status : { s : TurnStatus // s.inFlight = true }) :
    Changes op turnId (Session.setStatus turnId status) :=
  ⟨fun _ _ _ _ => ⟨_, rfl, rfl, status.2⟩, fun _ _ _ => ⟨_, rfl, Or.inl rfl⟩⟩

namespace Inner

theorem Sound.change_touch (h : inner.Sound) {op : Op} {turnId : String}
    {f : Session → Turn → Session} (hf : Changes op turnId f)
    (happly : op.apply inner = (inner.change turnId f).2)
    (haccepted : op.acceptedFor inner = okFor turnId (inner.change turnId f).1) (other : String) :
    Touch op inner other := by
  rcases change_cases inner turnId f with ⟨e, -, hchange⟩ |
    ⟨sessionId, session, turn, hfound, hchange⟩
  · exact .same (by rw [happly, hchange])
  · rw [hchange] at happly haccepted
    by_cases hself : other = sessionId
    · obtain ⟨hof, hid, hflight⟩ := h.turnMut_live hfound
      obtain ⟨-, -, hturn, -⟩ := turnMut_ok.mp hfound
      obtain ⟨turn', hturn', hid', -⟩ := hf.keeps session turn hturn hflight
      obtain ⟨turn'', hturn'', hasks⟩ := hf.asks session turn hturn
      rw [hturn', Option.some_inj] at hturn''
      refine .changed turn turn' (by rw [hself]; exact hof) (by rw [haccepted, hid]; rfl) ?_ hid' ?_
      · rw [happly, turnOf_put, if_pos hself, hturn']
      · rw [hturn'', hid]
        exact hasks
    · refine .same ?_
      rw [happly, turnOf_put, if_neg hself]

theorem Sound.terminate_touch (h : inner.Sound) {op : Op} {turnId : String} {status : TurnStatus}
    {text : String} {message : Option String} {now : ℕ}
    (happly : op.apply inner = (inner.terminate turnId status text message now).2)
    (haccepted : op.acceptedFor inner =
      okFor turnId (inner.terminate turnId status text message now).1) (other : String) :
    Touch op inner other := by
  rcases terminate_cases inner turnId status text message now with ⟨e, -, hend⟩ |
    ⟨sessionId, session, turn, hfound, hend⟩
  · exact .same (by rw [happly, hend]; rfl)
  · rw [hend] at happly haccepted
    by_cases hself : other = sessionId
    · obtain ⟨hof, hid, -⟩ := h.turnMut_live hfound
      have hof' := turnOf_put { inner with turns := inner.turns.erase turnId } sessionId
        (Session.terminate turnId status text message now session turn) other
      obtain ⟨turn', hturn', hid', hquestion⟩ : ∃ turn',
          (Session.terminate turnId status text message now session turn).turn = some turn' ∧
            turn'.id = turn.id ∧ turn'.question = turn.question := ⟨_, rfl, rfl, rfl⟩
      rw [if_pos hself, hturn'] at hof'
      rw [← hself] at hof
      exact .changed turn turn' hof (by rw [haccepted, hid]; rfl) (by rw [happly]; exact hof') hid'
        (Or.inl hquestion)
    · refine .same ?_
      rw [happly, turnOf_put, if_neg hself]
      rfl

theorem Drops.touch (op : Op) {kept : String → Bool} (h : Drops inner (op.apply inner) kept)
    (sessionId : String) : Touch op inner sessionId := by
  cases hkept : kept sessionId with
  | true => exact .same (h.turnOf sessionId hkept)
  | false => exact .gone (h.sessions sessionId hkept)

theorem turnOf_subscribe (inner : Inner) (sessionId : String) (now : ℕ) (other : String) :
    (inner.subscribe sessionId now).2.turnOf other = inner.turnOf other := by
  unfold subscribe
  split
  · rfl
  · split
    · rfl
    · dsimp only
      rw [turnOf_put]
      split
      · rename_i hself
        rw [hself]
        exact (turnOf_entry inner sessionId now other).2.1
      · exact (turnOf_entry inner sessionId now other).1

theorem turnOf_unsubscribe (inner : Inner) (sessionId : String) (now : ℕ) (other : String) :
    (inner.unsubscribe sessionId now).turnOf other = inner.turnOf other := by
  unfold unsubscribe
  split
  · rename_i session hsession
    rw [turnOf_put]
    split
    · rename_i hself
      rw [turnOf, hself, hsession]
      rfl
    · rfl
  · rfl

theorem Sound.touch (h : inner.Sound) (op : Op) (sessionId : String) : Touch op inner sessionId := by
  cases op with
  | subscribe other now => exact .same (turnOf_subscribe inner other now sessionId)
  | unsubscribe other now => exact .same (turnOf_unsubscribe inner other now sessionId)
  | call call =>
    cases call with
    | beginTurn other message clientLabel now =>
      rcases beginTurn_cases inner other message clientLabel now with
        ⟨e, recent, counter, hbegin⟩ | ⟨recent, request, -, -, hbegin⟩
      · exact .same (by rw [Op.apply, Call.apply, hbegin]; rfl)
      · have hof := turnOf_begun inner other recent now sessionId
        by_cases hself : sessionId = other
        · rw [if_pos hself] at hof
          subst hself
          refine .begun message clientLabel now request rfl (by rw [hbegin]) ?_
          rw [Op.apply, Call.apply, hbegin]
          exact hof
        · rw [if_neg hself] at hof
          refine .same ?_
          rw [Op.apply, Call.apply, hbegin]
          exact hof
    | pushText turnId fullText =>
      exact h.change_touch (pushText_changes _ turnId fullText) rfl rfl sessionId
    | pushStep turnId step => exact h.change_touch (pushStep_changes _ turnId step) rfl rfl sessionId
    | ask turnId question => exact h.change_touch (ask_changes turnId question) rfl rfl sessionId
    | answer other answer =>
      rcases answer_cases inner other answer with hanswer |
        ⟨session, turn, pending, hsession, hturn, -, -, hanswer⟩
      · exact .same (by rw [Op.apply, Call.apply, hanswer])
      · by_cases hself : sessionId = other
        · have hof' := turnOf_put inner other (Session.clearQuestion turn.id session turn) sessionId
          rw [if_pos hself] at hof'
          refine .changed turn { turn with question := none }
            (by rw [turnOf, hself, hsession]; exact hturn) ?_ ?_ ?_ ?_
          · rw [Op.acceptedFor, hanswer]
            rfl
          · rw [Op.apply, Call.apply, hanswer]
            exact hof'
          · rfl
          · exact Or.inr (Or.inl rfl)
        · refine .same ?_
          rw [Op.apply, Call.apply, hanswer, turnOf_put, if_neg hself]
    | clearQuestion turnId =>
      exact h.change_touch (clearQuestion_changes _ turnId) rfl rfl sessionId
    | setStatus turnId status =>
      exact h.change_touch (setStatus_changes _ turnId status) rfl rfl sessionId
    | finish turnId text now => exact h.terminate_touch rfl rfl sessionId
    | fail turnId message now => exact h.terminate_touch rfl rfl sessionId
    | reap now => exact Drops.touch (.call (.reap now)) (reap_drops inner now) sessionId
    | disconnect other =>
      obtain ⟨kept, hdrop⟩ := disconnect_drops inner other
      exact Drops.touch (.call (.disconnect other)) hdrop sessionId
    | clear => exact Drops.touch (.call .clear) (clear_drops inner) sessionId

/-! ## What each operation keeps -/

theorem Sound.op (h : inner.Sound) (op : Op) : (op.apply inner).Sound := by
  cases op with
  | subscribe sessionId now =>
    have hof := turnOf_subscribe inner sessionId now
    refine h.congr (fun id => ?_) (fun other => live_of_turnOf (hof other))
      (fun other => congrArg _ (hof other))
    simp only [Op.apply, Inner.subscribe]
    split
    · rfl
    · split
      · rfl
      · exact congrArg (AList.lookup id) (turnOf_entry inner sessionId now sessionId).2.2
  | unsubscribe sessionId now =>
    have hof := turnOf_unsubscribe inner sessionId now
    refine h.congr (fun id => ?_) (fun other => live_of_turnOf (hof other))
      (fun other => congrArg _ (hof other))
    simp only [Op.apply, Inner.unsubscribe]
    split <;> rfl
  | call call =>
    cases call with
    | beginTurn sessionId message clientLabel now =>
      exact h.beginTurn sessionId message clientLabel now
    | pushText turnId fullText =>
      exact h.change (pushText_changes (.call (.clear)) turnId fullText).keeps turnId
    | pushStep turnId step => exact h.change (pushStep_changes (.call (.clear)) turnId step).keeps turnId
    | ask turnId question => exact h.change (ask_changes turnId question).keeps turnId
    | answer sessionId answer => exact h.answer sessionId answer
    | clearQuestion turnId => exact h.change (clearQuestion_changes (.call (.clear)) turnId).keeps turnId
    | setStatus turnId status =>
      exact h.change (setStatus_changes (.call (.clear)) turnId status).keeps turnId
    | finish turnId text now => exact h.terminate turnId rfl text none now
    | fail turnId message now => exact h.terminate turnId rfl "" (some message) now
    | reap now => exact h.drops (reap_drops inner now)
    | disconnect sessionId =>
      obtain ⟨kept, hdrop⟩ := disconnect_drops inner sessionId
      exact h.drops hdrop
    | clear => exact h.drops (clear_drops inner)

theorem okFor_change {turnId id : String} {f : Session → Turn → Session}
    (h : okFor turnId (inner.change turnId f).1 = some id) :
    ∃ sessionId, inner.turns.lookup id = some sessionId := by
  rcases change_cases inner turnId f with ⟨e, -, hchange⟩ | ⟨sessionId, session, turn, hfound, hchange⟩
  · rw [hchange] at h
    cases h
  · rw [hchange] at h
    obtain rfl := Option.some.inj h
    exact ⟨sessionId, (turnMut_ok.mp hfound).1⟩

theorem okFor_terminate {turnId id : String} {status : TurnStatus} {text : String}
    {message : Option String} {now : ℕ}
    (h : okFor turnId (inner.terminate turnId status text message now).1 = some id) :
    ∃ sessionId, inner.turns.lookup id = some sessionId := by
  rcases terminate_cases inner turnId status text message now with ⟨e, -, hend⟩ |
    ⟨sessionId, session, turn, hfound, hend⟩
  · rw [hend] at h
    cases h
  · rw [hend] at h
    obtain rfl := Option.some.inj h
    exact ⟨sessionId, (turnMut_ok.mp hfound).1⟩

/-- An operation is accepted for a turn that the map has, or it answers a question a session has. -/
theorem accepted_cases {op : Op} {id : String} (h : op.acceptedFor inner = some id) :
    (∃ sessionId, inner.turns.lookup id = some sessionId) ∨
      ∃ sessionId answer turn pending, op = .call (.answer sessionId answer) ∧
        inner.turnOf sessionId = some turn ∧ turn.id = id ∧ turn.question = some pending ∧
          pending.id = answer.questionId := by
  cases op with
  | subscribe sessionId now => cases h
  | unsubscribe sessionId now => cases h
  | call call =>
    cases call with
    | beginTurn sessionId message clientLabel now => cases h
    | pushText turnId fullText => exact Or.inl (okFor_change h)
    | pushStep turnId step => exact Or.inl (okFor_change h)
    | ask turnId question => exact Or.inl (okFor_change h)
    | answer sessionId answer =>
      rcases answer_cases inner sessionId answer with hanswer |
        ⟨session, turn, pending, hsession, hturn, hpending, hid, hanswer⟩
      · rw [Op.acceptedFor, hanswer] at h
        cases h
      · rw [Op.acceptedFor, hanswer] at h
        exact Or.inr ⟨sessionId, answer, turn, pending, rfl, by rw [turnOf, hsession]; exact hturn,
          Option.some.inj h, hpending, hid⟩
    | clearQuestion turnId => exact Or.inl (okFor_change h)
    | setStatus turnId status => exact Or.inl (okFor_change h)
    | finish turnId text now => exact Or.inl (okFor_terminate h)
    | fail turnId message now => exact Or.inl (okFor_terminate h)
    | reap now => cases h
    | disconnect sessionId => cases h
    | clear => cases h

end Inner

/-! ## Turns that have ended -/

/-- Whether an operation starts another turn in a session. -/
def Op.begins (op : Op) (inner : Inner) (sessionId : String) : Prop :=
  ∃ message clientLabel now request, op = .call (.beginTurn sessionId message clientLabel now) ∧
    (inner.beginTurn sessionId message clientLabel now).1 = .ok request

/-- An operation is not accepted for a turn that has ended, and leaves it as it is: all that can happen
to it is that its session goes, or begins another. -/
def EndedStays (inner : Inner) (op : Op) : Prop :=
  ∀ sessionId turn, inner.turnOf sessionId = some turn → turn.status.inFlight = false →
    op.acceptedFor inner ≠ some turn.id ∧
      ((op.apply inner).turnOf sessionId = some turn ∨
        (op.apply inner).sessions.lookup sessionId = none ∨ op.begins inner sessionId)

/-- No answer names a question that is still there after its turn has ended. -/
def NoLateAnswer (inner : Inner) (op : Op) : Prop :=
  match op with
  | .call (.answer sessionId answer) => ∀ turn pending, inner.turnOf sessionId = some turn →
      turn.question = some pending → pending.id = answer.questionId → turn.status.inFlight = true
  | _ => True

theorem endedStays_of_noLate {op : Op} (h : inner.Sound) (hlate : NoLateAnswer inner op) :
    EndedStays inner op := by
  intro sessionId turn hturn hended
  have hrefused : op.acceptedFor inner ≠ some turn.id := by
    intro haccepted
    rcases Inner.accepted_cases haccepted with ⟨other, hmapped⟩ |
      ⟨other, answer, turn', pending, rfl, hturn', hid, hpending, hanswer⟩
    · obtain ⟨turn', hturn', hflight, hid⟩ :=
        Inner.live_eq_some.mp ((h.mapped turn.id other).mp hmapped)
      rw [h.own.unique hturn' hturn hid, hturn, Option.some_inj] at hturn'
      rw [← hturn', hended] at hflight
      cases hflight
    · have hflight := hlate turn' pending hturn' hpending hanswer
      rw [h.own.unique hturn' hturn hid, hturn, Option.some_inj] at hturn'
      rw [← hturn', hended] at hflight
      cases hflight
  refine ⟨hrefused, ?_⟩
  cases h.touch op sessionId with
  | same hsame => exact Or.inl (hsame.trans hturn)
  | gone hgone => exact Or.inr (Or.inl hgone)
  | begun message clientLabel now request hop hok _ =>
    exact Or.inr (Or.inr ⟨message, clientLabel, now, request, hop, hok⟩)
  | changed turn' _ hturn' haccepted _ _ _ =>
    rw [hturn, Option.some_inj] at hturn'
    rw [hturn'] at hrefused
    exact absurd haccepted hrefused

theorem noLate_of_endedStays {op : Op} (h : EndedStays inner op) : NoLateAnswer inner op := by
  cases op with
  | subscribe sessionId now => trivial
  | unsubscribe sessionId now => trivial
  | call call =>
    cases call with
    | answer sessionId answer =>
      intro turn pending hturn hpending hid
      by_contra hended
      refine (h sessionId turn hturn (by simpa using hended)).1 ?_
      obtain ⟨session, hsession, hof⟩ := Option.bind_eq_some_iff.mp hturn
      simp [Op.acceptedFor, Inner.answer, hsession, hof, hpending, hid, Except.toOption]
    | _ => trivial

/-! ## Answers -/

/-- A question is asked of a turn. -/
def asks (turnId questionId : String) (inner : Inner) (op : Op) : Bool :=
  match op with
  | .call (.ask id question) =>
    id = turnId && question.id = questionId && (op.acceptedFor inner).isSome
  | _ => false

/-- An answer to a question is accepted for a turn. -/
def answers (turnId questionId : String) (inner : Inner) (op : Op) : Bool :=
  match op with
  | .call (.answer _ answer) =>
    answer.questionId = questionId && op.acceptedFor inner = some turnId
  | _ => false

/-- A turn waits for an answer to a question. -/
def waits (turnId questionId : String) (inner : Inner) : Bool :=
  inner.sessions.entries.any (fun e => e.2.turn.any (fun turn =>
    turn.id = turnId && turn.question.any (fun q => q.id = questionId)))

theorem waits_iff {turnId questionId : String} : waits turnId questionId inner = true ↔
    ∃ sessionId turn pending, inner.turnOf sessionId = some turn ∧ turn.id = turnId ∧
      turn.question = some pending ∧ pending.id = questionId := by
  simp only [waits, List.any_eq_true, Option.any_eq_true, Bool.and_eq_true, decide_eq_true_eq]
  constructor
  · rintro ⟨⟨sessionId, session⟩, hmem, turn, hturn, hid, pending, hpending, hquestion⟩
    have hsession := mem_entries.mp hmem
    exact ⟨sessionId, turn, pending, by rw [Inner.turnOf, hsession]; exact hturn, hid, hpending,
      hquestion⟩
  · rintro ⟨sessionId, turn, pending, hof, hid, hpending, hquestion⟩
    obtain ⟨session, hsession, hturn⟩ := Option.bind_eq_some_iff.mp hof
    exact ⟨⟨sessionId, session⟩, mem_entries.mpr hsession, turn, hturn, hid, pending, hpending,
      hquestion⟩

theorem waits_of_answers {op : Op} {turnId questionId : String} (h : inner.Sound)
    (hanswers : answers turnId questionId inner op = true) :
    waits turnId questionId inner = true ∧ waits turnId questionId (op.apply inner) = false := by
  unfold answers at hanswers
  split at hanswers
  · rename_i sessionId answer
    simp only [Bool.and_eq_true, decide_eq_true_eq] at hanswers
    obtain ⟨rfl, haccepted⟩ := hanswers
    rcases Inner.answer_cases inner sessionId answer with hanswer |
      ⟨session, turn, pending, hsession, hturn, hpending, hid, hanswer⟩
    · rw [Op.acceptedFor, hanswer] at haccepted
      cases haccepted
    · rw [Op.acceptedFor, hanswer] at haccepted
      obtain rfl : turn.id = turnId := Option.some.inj haccepted
      have hof : inner.turnOf sessionId = some turn := by
        rw [Inner.turnOf, hsession]
        exact hturn
      refine ⟨waits_iff.mpr ⟨sessionId, turn, pending, hof, rfl, hpending, hid⟩, ?_⟩
      rw [Op.apply, Call.apply, hanswer, ← Bool.not_eq_true, waits_iff]
      rintro ⟨other, turn', pending', hof', hid', hpending', -⟩
      rw [Inner.turnOf_put] at hof'
      split at hof'
      · rw [← Option.some.inj hof'] at hpending'
        cases hpending'
      · rename_i hother
        exact hother (h.own.unique hof' hof hid')
  · cases hanswers

theorem waits_or_asks {op : Op} {turnId questionId : String} (h : inner.Sound)
    (hwaits : waits turnId questionId (op.apply inner) = true) :
    waits turnId questionId inner = true ∨ asks turnId questionId inner op = true := by
  obtain ⟨sessionId, turn, pending, hof, hid, hpending, hquestion⟩ := waits_iff.mp hwaits
  cases h.touch op sessionId with
  | same hsame =>
    exact Or.inl (waits_iff.mpr ⟨sessionId, turn, pending, hsame.symm.trans hof, hid, hpending,
      hquestion⟩)
  | gone hgone =>
    rw [Inner.turnOf, hgone] at hof
    cases hof
  | begun _ _ _ _ _ _ hnew =>
    rw [hnew, Option.some_inj] at hof
    rw [← hof] at hpending
    cases hpending
  | changed turn' turn'' hturn' haccepted hnew hsame hasks =>
    rw [hnew, Option.some_inj] at hof
    subst hof
    rcases hasks with hsameQuestion | hnone | ⟨q, rfl, hq⟩
    · exact Or.inl (waits_iff.mpr ⟨sessionId, turn', pending, hturn', hsame.symm.trans hid,
        hsameQuestion.symm.trans hpending, hquestion⟩)
    · rw [hnone] at hpending
      cases hpending
    · right
      rw [hq, Option.some_inj] at hpending
      subst hpending
      simp [asks, haccepted, ← hid, hsame, hquestion]

/-! ## Runs -/

theorem run_sound (ops : List Op) : (run Op.apply Inner.new ops).Sound :=
  run_keeps Inner.Sound (P := fun _ _ => True) (fun _ op h _ => h.op op) Inner.new_sound
    (fun _ _ _ _ => trivial)

/-- The map of turns is right in every state there is, no question is answered more often than it was
asked; and turns that have ended stay as they are exactly as long as no answer comes for one whose
question is still there. -/
theorem turns_live_iff (ops : List Op) :
    ((∀ before after, ops = before ++ after → (run Op.apply Inner.new before).Mapped ∧
        ∀ a b sessionId, (run Op.apply Inner.new before).turns.lookup a = some sessionId →
          (run Op.apply Inner.new before).turns.lookup b = some sessionId → a = b) ∧
      EveryStep Op.apply Inner.new ops EndedStays ∧
      ∀ turnId questionId, tally Op.apply (answers turnId questionId) Inner.new ops ≤
        tally Op.apply (asks turnId questionId) Inner.new ops) ↔
      EveryStep Op.apply Inner.new ops NoLateAnswer := by
  constructor
  · rintro ⟨-, hstay, -⟩ before op after hops
    exact noLate_of_endedStays (hstay before op after hops)
  · intro hlate
    refine ⟨?_, fun before op after hops => ?_, fun turnId questionId => ?_⟩
    · rintro before after -
      have hmapped := (run_sound before).mapped
      refine ⟨hmapped, fun a b sessionId ha hb => ?_⟩
      rw [hmapped] at ha hb
      exact Option.some.inj (ha.symm.trans hb)
    · exact endedStays_of_noLate (run_sound before) (hlate before op after hops)
    · exact tally_take_le Inner.Sound (waits turnId questionId) (P := fun _ _ => True)
        (fun _ op h _ => h.op op)
        (fun _ _ h _ => waits_of_answers h) (fun _ _ h _ => waits_or_asks h) Inner.new_sound
        (fun _ _ _ _ => trivial)

/-! A guest answers after the turn is done. -/

def lateAnswer : List Op :=
  [.call (.beginTurn "s" "hi" none 0), .call (.ask "s#0" ⟨"q", "Which?", [], false⟩),
    .call (.finish "s#0" "Done." 1), .call (.answer "s" ⟨"q", [], none⟩)]

theorem late_answer_accepted :
    ¬ ((∀ before after, lateAnswer = before ++ after → (run Op.apply Inner.new before).Mapped ∧
        ∀ a b sessionId, (run Op.apply Inner.new before).turns.lookup a = some sessionId →
          (run Op.apply Inner.new before).turns.lookup b = some sessionId → a = b) ∧
      EveryStep Op.apply Inner.new lateAnswer EndedStays ∧
      ∀ turnId questionId, tally Op.apply (answers turnId questionId) Inner.new lateAnswer ≤
        tally Op.apply (asks turnId questionId) Inner.new lateAnswer) := by
  rintro ⟨-, hstay, -⟩
  have hdone : (run Op.apply Inner.new (lateAnswer.take 3)).turnOf "s" =
      some ⟨"s#0", "Done.", .done, none, [], some ⟨"q", "Which?", [], false⟩⟩ := by decide
  have hrefused := (hstay (lateAnswer.take 3) _ [] rfl "s" _ hdone rfl).1
  exact hrefused (by decide)

end Haruspex.Relay
