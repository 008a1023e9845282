import Haruspex.Library.Replicas
import Haruspex.Relay.Client

/-! What the client shows, event by event. A turn goes from text to text as its events say, and a
client that shows the one shows the other once it has handled the event. -/
namespace Haruspex.Relay
open Replicas
set_option autoImplicit false

/-! ## What there is to show -/

/-- The text of a turn, or the message it failed with. -/
def Turn.says (turn : Turn) : String :=
  match turn.status, turn.message with
  | .failed, some message => message
  | _, _ => turn.text

/-- What there is to show of a turn. -/
structure View where
  id : String
  text : String
  live : Bool
  deriving DecidableEq

def Turn.view (turn : Turn) : View := ⟨turn.id, turn.says, turn.status.inFlight⟩

/-- An event of the turn in flight. -/
def ofLive (v : Option View) (turnId : String) (next : View → View) : Option (Option View) :=
  match v with
  | some w => if w.id = turnId ∧ w.live = true then some (some (next w)) else none
  | none => none

/-- What an event leads to, where it can come. -/
def follow (v : Option View) (event : RemoteEvent) : Option (Option View) :=
  match event with
  | .snapshot turnId text status message _ _ =>
    match turnId with
    | none => some v
    | some id =>
      if id = "" then none
      else some (some ⟨id, (Client.failure status message).getD text,
        status = some .waiting ∨ status = some .running⟩)
  | .delta turnId text => ofLive v turnId (fun w => { w with text := w.text ++ text })
  | .done turnId text => ofLive v turnId (fun _ => ⟨turnId, text, false⟩)
  | .error turnId message =>
    if message = "" then none else ofLive v turnId (fun _ => ⟨turnId, message, false⟩)
  | .state turnId _ =>
    match v with
    | some w =>
      if w.id = turnId then (if w.live then some v else none)
      else if w.live then none else some (some ⟨turnId, "", true⟩)
    | none => some (some ⟨turnId, "", true⟩)
  | .step turnId _ => ofLive v turnId id
  | .question turnId _ => ofLive v turnId id
  | .questionCleared _ => if v = none then none else some v

theorem ofLive_eq_some {v v' : Option View} {turnId : String} {next : View → View}
    (h : ofLive v turnId next = some v') :
    ∃ w, v = some w ∧ w.id = turnId ∧ w.live = true ∧ v' = some (next w) := by
  unfold ofLive at h
  split at h
  · rename_i w
    split at h
    · rename_i hlive
      exact ⟨w, rfl, hlive.1, hlive.2, (Option.some.inj h).symm⟩
    · cases h
  · cases h

/-! ## What is shown -/

namespace Client

variable {c : Client}

/-- The page ends in the bubble of a turn. -/
def EndsIn (transcript : List Bubble) (id text : String) (pending : Bool) : Prop :=
  ∃ earlier b, transcript = earlier ++ [b] ∧ b.role = .assistant ∧ b.turnId = some id ∧
    b.text = text ∧ (pending = false → b.pending = false)

/-- A bubble that waits for a turn, made of a question that was cleared too late. -/
def IsSpare (b : Bubble) : Prop :=
  b.role = .assistant ∧ b.turnId = none ∧ b.text = "" ∧ b.pending = true

/-- The client shows this, and writes on in it as long as the turn is live. -/
def Shows (c : Client) (v : Option View) : Prop :=
  match v with
  | none => c = Client.new
  | some ⟨id, text, true⟩ => c.currentTurn = some id ∧ EndsIn c.transcript id text true
  | some ⟨id, text, false⟩ => c.currentTurn = none ∧
      (EndsIn c.transcript id text false ∨
        ∃ transcript spare, c.transcript = transcript ++ [spare] ∧ IsSpare spare ∧
          EndsIn transcript id text true)

theorem shown_of_endsIn {id text : String} {pending : Bool} (h : EndsIn c.transcript id text pending) :
    c.shown id = some text := by
  obtain ⟨earlier, b, htranscript, -, hid, htext, -⟩ := h
  rw [shown, htranscript]
  simp [hid, htext]

theorem Shows.shown {v : View} (h : c.Shows (some v)) : c.shown v.id = some v.text := by
  obtain ⟨id, text, live⟩ := v
  cases live with
  | true => exact shown_of_endsIn h.2
  | false =>
    obtain ⟨-, hends | ⟨transcript, spare, htranscript, hspare, hends⟩⟩ := h
    · exact shown_of_endsIn hends
    · obtain ⟨earlier, b, hearlier, -, hid, htext, -⟩ := hends
      rw [Client.shown, htranscript, hearlier]
      simp [hspare.2.1, hid, htext]

/-! ## The slot -/

theorem assistantSlot_last {earlier : List Bubble} {b : Bubble} (write : Bubble → Bubble)
    (htranscript : c.transcript = earlier ++ [b]) (hrole : b.role = .assistant)
    (hown : b.turnId = c.currentTurn ∨ b.pending = true) :
    c.assistantSlot write =
      { c with transcript := earlier ++ [write { b with turnId := c.currentTurn }] } := by
  unfold assistantSlot
  simp [htranscript, hrole, hown]

theorem assistantSlot_new {earlier : List Bubble} {b : Bubble} (write : Bubble → Bubble)
    (htranscript : c.transcript = earlier ++ [b]) (hother : b.turnId ≠ c.currentTurn)
    (hpending : b.pending = false) :
    c.assistantSlot write = { c with transcript := c.transcript ++ [write c.emptyBubble] } := by
  unfold assistantSlot
  simp [htranscript, hother, hpending]

/-- Wherever it is, the slot is an assistant's bubble at the end, of the current turn. -/
theorem assistantSlot_ends (c : Client) (write : Bubble → Bubble) :
    ∃ earlier b, c.assistantSlot write = { c with transcript := earlier ++ [write b] } ∧
      b.role = .assistant ∧ b.turnId = c.currentTurn := by
  unfold assistantSlot
  split
  · rename_i last hlast
    split
    · rename_i hadopt
      exact ⟨c.transcript.dropLast, { last with turnId := c.currentTurn }, rfl, hadopt.1, rfl⟩
    · exact ⟨c.transcript, c.emptyBubble, rfl, rfl, rfl⟩
  · exact ⟨c.transcript, c.emptyBubble, rfl, rfl, rfl⟩

theorem saveTranscript_ends {id text : String} {pending : Bool}
    (h : EndsIn c.transcript id text pending) :
    EndsIn c.saveTranscript.transcript id text pending := by
  obtain ⟨earlier, b, htranscript, hb⟩ := h
  refine ⟨earlier.drop (c.transcript.length - transcriptLimit), b, ?_, hb⟩
  have hle : c.transcript.length - transcriptLimit ≤ earlier.length := by
    rw [htranscript, List.length_append, List.length_singleton, transcriptLimit]
    omega
  rw [saveTranscript]
  dsimp only
  rw [htranscript] at hle ⊢
  rw [List.drop_append_of_le_length hle]

/-! ## Events that are whole -/

/-- A bubble written anew. -/
theorem slotOf_ends (c : Client) (id text : String) (pending : Bool) (write : Bubble → Bubble)
    (hwrite : ∀ b, (write b).role = b.role ∧ (write b).turnId = b.turnId ∧ (write b).text = text ∧
      (pending = false → (write b).pending = false)) :
    (c.slotOf id write).currentTurn = some id ∧
      EndsIn (c.slotOf id write).transcript id text pending := by
  obtain ⟨earlier, b, hslot, hrole, hid⟩ :=
    assistantSlot_ends { c with currentTurn := some id } write
  obtain ⟨hwrole, hwid, hwtext, hwpending⟩ := hwrite b
  rw [slotOf, hslot]
  exact ⟨rfl, earlier, write b, rfl, hwrole.trans hrole, hwid.trans hid, hwtext, hwpending⟩

/-- A turn that ends with its bubble written anew. -/
theorem shows_ended (c : Client) (id text : String) (write : Bubble → Bubble)
    (hwrite : ∀ b, (write b).role = b.role ∧ (write b).turnId = b.turnId ∧ (write b).text = text ∧
      (write b).pending = false) :
    (saveTranscript { c.slotOf id write with currentTurn := none }).Shows
      (some ⟨id, text, false⟩) := by
  have hends := (slotOf_ends c id text false write fun b =>
    ⟨(hwrite b).1, (hwrite b).2.1, (hwrite b).2.2.1, fun _ => (hwrite b).2.2.2⟩).2
  refine ⟨rfl, Or.inl ?_⟩
  exact saveTranscript_ends (c := { c.slotOf id write with currentTurn := none }) hends

theorem whole_done (id text : String) :
    Whole handle Shows (.done id text) (some ⟨id, text, false⟩) :=
  fun c => shows_ended c id text _ fun _ => ⟨rfl, rfl, rfl, rfl⟩

theorem whole_error (id : String) {message : String} (h : message ≠ "") :
    Whole handle Shows (.error id message) (some ⟨id, message, false⟩) :=
  fun c => shows_ended c id message _ fun _ => ⟨rfl, rfl, if_neg h, rfl⟩

theorem rewrite_spec (text : String) (status : Option TurnStatus) (message : Option String)
    (steps : List Step) (question : Option Question) (b : Bubble) :
    (rewrite text status message steps question b).role = b.role ∧
      (rewrite text status message steps question b).turnId = b.turnId ∧
      (rewrite text status message steps question b).text = (failure status message).getD text ∧
      (rewrite text status message steps question b).pending =
        decide (status = some .waiting ∨ status = some .running) := by
  unfold rewrite
  cases failure status message with
  | none => exact ⟨rfl, rfl, rfl, rfl⟩
  | some m => exact ⟨rfl, rfl, rfl, rfl⟩

theorem whole_snapshot {id : String} (hid : id ≠ "") (text : String) (status : Option TurnStatus)
    (message : Option String) (steps : List Step) (question : Option Question) :
    Whole handle Shows (.snapshot (some id) text status message steps question)
      (some ⟨id, (failure status message).getD text,
        status = some .waiting ∨ status = some .running⟩) := by
  intro c
  have hspec := rewrite_spec text status message steps question
  have hfilter : (some id).filter (fun id => id ≠ "") = some id := by simp [hid]
  unfold handle
  dsimp only
  rw [hfilter]
  dsimp only
  by_cases hlive : status = some .waiting ∨ status = some .running
  · rw [if_pos hlive, decide_eq_true hlive]
    obtain ⟨hcurrent, hends⟩ := slotOf_ends c id ((failure status message).getD text) true
      (rewrite text status message steps question)
      (fun b => ⟨(hspec b).1, (hspec b).2.1, (hspec b).2.2.1, nofun⟩)
    exact ⟨hcurrent, saveTranscript_ends hends⟩
  · rw [if_neg hlive, decide_eq_false hlive]
    refine shows_ended c id _ _ fun b => ⟨(hspec b).1, (hspec b).2.1, (hspec b).2.2.1, ?_⟩
    rw [(hspec b).2.2.2, decide_eq_false hlive]

/-! ## Events that go on -/

/-- What is written to the bubble of a live turn. -/
theorem shows_live {id text text' : String} {write : Bubble → Bubble}
    (h : c.Shows (some ⟨id, text, true⟩))
    (hwrite : ∀ b, b.text = text → (write b).role = b.role ∧ (write b).turnId = b.turnId ∧
      (write b).text = text') : (c.slotOf id write).Shows (some ⟨id, text', true⟩) := by
  obtain ⟨hcurrent, earlier, b, htranscript, hrole, hid, htext, -⟩ := h
  obtain ⟨hwrole, hwid, hwtext⟩ := hwrite { b with turnId := some id } htext
  rw [slotOf, assistantSlot_last (c := { c with currentTurn := some id }) write htranscript hrole
    (Or.inl hid)]
  exact ⟨rfl, earlier, _, rfl, hwrole.trans hrole, hwid, hwtext, nofun⟩

/-- The first bubble of a new turn. -/
theorem shows_begun {v : Option View} {id : String} {write : Bubble → Bubble} (h : c.Shows v)
    (hnew : ∀ w, v = some w → w.live = false ∧ w.id ≠ id)
    (hwrite : ∀ b, (write b).role = b.role ∧ (write b).turnId = b.turnId ∧
      (write b).text = b.text) : (c.slotOf id write).Shows (some ⟨id, "", true⟩) := by
  have hfresh : ({ c with currentTurn := some id }.emptyBubble).text = "" := rfl
  have happend (transcript : List Bubble) :
      EndsIn (transcript ++ [write { c with currentTurn := some id }.emptyBubble]) id "" true := by
    obtain ⟨hwrole, hwid, hwtext⟩ := hwrite { c with currentTurn := some id }.emptyBubble
    exact ⟨transcript, _, rfl, hwrole, hwid, hwtext, nofun⟩
  cases v with
  | none =>
    obtain rfl : c = Client.new := h
    exact ⟨rfl, happend []⟩
  | some w =>
    obtain ⟨id', text, live⟩ := w
    obtain ⟨hlive, hother⟩ := hnew _ rfl
    simp only at hlive hother
    subst hlive
    obtain ⟨-, hends | ⟨transcript, spare, htranscript, hspare, -⟩⟩ := h
    · obtain ⟨earlier, b, htranscript, -, hid, -, hpending⟩ := hends
      rw [slotOf, assistantSlot_new (c := { c with currentTurn := some id }) write htranscript
        (by rw [hid]; simpa using hother) (hpending rfl)]
      exact ⟨rfl, happend c.transcript⟩
    · obtain ⟨hrole, -, htext, hpending⟩ := hspare
      obtain ⟨hwrole, hwid, hwtext⟩ := hwrite { spare with turnId := some id }
      rw [slotOf, assistantSlot_last (c := { c with currentTurn := some id }) write htranscript
        hrole (Or.inr hpending)]
      exact ⟨rfl, transcript, _, rfl, hwrole.trans hrole, hwid, hwtext.trans htext, nofun⟩

/-- A question cleared, in time or too late. -/
theorem shows_cleared {v : View} (h : c.Shows (some v)) (turnId : String) :
    (c.handle (.questionCleared turnId)).Shows (some v) := by
  obtain ⟨id, text, live⟩ := v
  unfold handle
  dsimp only
  cases live with
  | true =>
    obtain ⟨hcurrent, earlier, b, htranscript, hrole, hid, htext, -⟩ := h
    rw [assistantSlot_last _ htranscript hrole (Or.inl (hid.trans hcurrent.symm))]
    exact ⟨hcurrent, earlier, _, rfl, hrole, hcurrent, htext, nofun⟩
  | false =>
    obtain ⟨hcurrent, hends | ⟨transcript, spare, htranscript, hspare, hends⟩⟩ := h
    · obtain ⟨earlier, b, htranscript, hrole, hid, htext, hpending⟩ := hends
      rw [assistantSlot_new _ htranscript (by rw [hid, hcurrent]; nofun) (hpending rfl)]
      exact ⟨hcurrent, Or.inr ⟨c.transcript, _, rfl, ⟨rfl, hcurrent, rfl, rfl⟩, earlier, b,
        htranscript, hrole, hid, htext, nofun⟩⟩
    · obtain ⟨hrole, hid, htext, hpending⟩ := hspare
      rw [assistantSlot_last _ htranscript hrole (Or.inl (hid.trans hcurrent.symm))]
      exact ⟨hcurrent, Or.inr ⟨transcript, _, rfl, ⟨hrole, hcurrent, htext, rfl⟩, hends⟩⟩

/-- Whatever event comes, the client shows what it leads to. -/
theorem shows_handle (event : RemoteEvent) {v v' : Option View} (h : c.Shows v)
    (hfollow : follow v event = some v') : (c.handle event).Shows v' := by
  cases event with
  | snapshot turnId text status message steps question =>
    cases turnId with
    | none =>
      obtain rfl : v = v' := Option.some.inj hfollow
      exact h
    | some id =>
      unfold follow at hfollow
      dsimp only at hfollow
      split at hfollow
      · cases hfollow
      · rename_i hid
        obtain rfl := Option.some.inj hfollow
        exact whole_snapshot hid text status message steps question c
  | delta turnId text =>
    obtain ⟨⟨id, before, live⟩, rfl, rfl, hlive, rfl⟩ := ofLive_eq_some hfollow
    obtain rfl : live = true := hlive
    exact shows_live h fun b htext => ⟨rfl, rfl, by rw [htext]⟩
  | done turnId text =>
    obtain ⟨w, rfl, rfl, hlive, rfl⟩ := ofLive_eq_some hfollow
    exact whole_done w.id text c
  | error turnId message =>
    unfold follow at hfollow
    dsimp only at hfollow
    split at hfollow
    · cases hfollow
    · rename_i hmessage
      obtain ⟨w, rfl, rfl, hlive, rfl⟩ := ofLive_eq_some hfollow
      exact whole_error w.id hmessage c
  | state turnId status =>
    unfold follow at hfollow
    dsimp only at hfollow
    split at hfollow
    · rename_i w
      obtain ⟨id, text, live⟩ := w
      split at hfollow
      · rename_i hid
        split at hfollow
        · rename_i hlive
          obtain rfl : live = true := hlive
          obtain rfl : id = turnId := hid
          obtain rfl := Option.some.inj hfollow
          exact shows_live h fun b htext => ⟨rfl, rfl, htext⟩
        · cases hfollow
      · rename_i hid
        split at hfollow
        · cases hfollow
        · rename_i hlive
          obtain rfl := Option.some.inj hfollow
          refine shows_begun h (fun w' hw' => ?_) fun b => ⟨rfl, rfl, rfl⟩
          obtain rfl := Option.some.inj hw'
          exact ⟨by simpa using hlive, hid⟩
    · obtain rfl := Option.some.inj hfollow
      exact shows_begun h nofun fun b => ⟨rfl, rfl, rfl⟩
  | step turnId step =>
    obtain ⟨⟨id, before, live⟩, rfl, rfl, hlive, rfl⟩ := ofLive_eq_some hfollow
    obtain rfl : live = true := hlive
    exact shows_live h fun b htext => ⟨rfl, rfl, htext⟩
  | question turnId question =>
    obtain ⟨⟨id, before, live⟩, rfl, rfl, hlive, rfl⟩ := ofLive_eq_some hfollow
    obtain rfl : live = true := hlive
    exact shows_live h fun b htext => ⟨rfl, rfl, htext⟩
  | questionCleared turnId =>
    unfold follow at hfollow
    dsimp only at hfollow
    split at hfollow
    · cases hfollow
    · obtain rfl := Option.some.inj hfollow
      cases v with
      | none => contradiction
      | some w => exact shows_cleared h turnId

end Client

end Haruspex.Relay
