import Haruspex.ContextBudget.Edits

/-! What a server asks of a conversation, and what the guard is to leave of one. Edits of single
messages change nothing about it. -/
namespace Haruspex.ContextBudget
open JavaScript
set_option autoImplicit false

/-! ## Calls and their results -/

/-- An assistant message with a tool call of this id. -/
def carries (m : ChatMessage) (id : String) : Prop :=
  m.role = .assistant ∧ ∃ call ∈ m.calls, call.id = id

/-- A tool message with this id. -/
def answers (m : ChatMessage) (id : String) : Prop :=
  m.role = .tool ∧ m.toolCallId = some id

/-- Every tool result has a call of its id before it. -/
def Answered (messages : List ChatMessage) : Prop :=
  ∀ (k : ℕ) t id, messages[k]? = some t → answers t id →
    ∃ (i : ℕ) (a : ChatMessage), i < k ∧ messages[i]? = some a ∧ carries a id

/-- No drop can take the calls before a tool result and leave the result: its id is not carried again
after it, or a call before it is too recent to be dropped. -/
def Unsplit (messages : List ChatMessage) : Prop :=
  ∀ (k : ℕ) t id, messages[k]? = some t → answers t id →
    (id ≠ "" ∧ ∀ (j : ℕ) a, k < j → messages[j]? = some a → ¬ carries a id) ∨
      ∃ (i : ℕ) (a : ChatMessage), i < k ∧ messages[i]? = some a ∧ carries a id ∧
        (messages.drop i).countP (fun m => m.role ≠ .system) ≤ protectedTurns * 2

/-- A message without its content. -/
def ChatMessage.bare (m : ChatMessage) : ChatMessage := { m with content := .text "" }

/-- The messages at these places. -/
def select (messages : List ChatMessage) (places : List ℕ) : List ChatMessage :=
  places.filterMap (fun i => messages[i]?)

/-- What the guard may keep of a conversation. -/
structure Keeps (messages : List ChatMessage) (places : List ℕ) : Prop where
  sorted : places.Pairwise (· < ·)
  inside : ∀ i ∈ places, i < messages.length
  system : ∀ (i : ℕ) m, messages[i]? = some m → m.role = .system → i ∈ places
  latest : ∀ i, latestUser messages = some i → i ∈ places
  results : ∀ (i k : ℕ) a t id, i ∈ places → i < k → messages[i]? = some a →
    messages[k]? = some t → carries a id → answers t id → k ∈ places

/-- The note as a message of its own. -/
def noteMessage : ChatMessage := ⟨.user, .text droppedTurnsNote, none, none⟩

/-- What is left of a conversation is well-formed: its results have their calls before them, and,
without at most one added note, its messages are messages of the input in their order, with every
system message, the latest user message and the results of the calls that are left. -/
structure WellFormed (messages messages' : List ChatMessage) : Prop where
  answered : Answered messages'
  kept : ∃ added places, (added = [] ∨ added = [noteMessage]) ∧ Keeps messages places ∧
    messages'.map ChatMessage.bare = (added ++ select messages places).map ChatMessage.bare

/-! ## The note -/

/-- A leading message may hold the note once, if it is a system message or is just the note. -/
def HoldsNote (m : ChatMessage) : Prop :=
  noteTimes m = 0 ∨ noteTimes m = 1 ∧ (m.role = .system ∨ m.isNote = true ∧ m.role ≠ .assistant)

/-- The note is nowhere but in the leading message. -/
structure NoteOnce (messages : List ChatMessage) : Prop where
  calls : CleanCalls messages
  first : ∀ m, messages[0]? = some m → HoldsNote m
  rest : ∀ (i : ℕ) m, messages[i + 1]? = some m → noteTimes m = 0

/-- How often the note occurs in a conversation. -/
def noteTotal (messages : List ChatMessage) : ℕ := (messages.map noteTimes).sum

variable {messages messages' : List ChatMessage}

theorem HoldsNote.count_le {m : ChatMessage} (h : HoldsNote m) : noteTimes m ≤ 1 := by
  rcases h with h | ⟨h, -⟩ <;> omega

theorem NoteOnce.total_le (h : NoteOnce messages) : noteTotal messages ≤ 1 := by
  cases messages with
  | nil => exact Nat.zero_le 1
  | cons m rest =>
    have hrest : (rest.map noteTimes).sum = 0 := by
      rw [List.sum_eq_zero_iff_forall_eq_nat]
      intro n hn
      obtain ⟨m', hm', rfl⟩ := List.mem_map.mp hn
      obtain ⟨i, hi⟩ := List.mem_iff_getElem?.mp hm'
      exact h.rest i m' hi
    have hfirst := (h.first m rfl).count_le
    rw [noteTotal, List.map_cons, List.sum_cons]
    omega

/-- No message that could be dropped is the note, the leading one apart, and no assistant is. -/
theorem NoteOnce.isNote (h : NoteOnce messages) {i : ℕ} {m : ChatMessage} (hm : messages[i]? = some m)
    (hnote : m.isNote = true) : i = 0 ∧ m.role ≠ .assistant := by
  have htimes := noteTimes_note hnote
  cases i with
  | zero =>
    rcases h.first m hm with h | ⟨-, h | h⟩
    · omega
    · exact ⟨rfl, by rw [h]; decide⟩
    · exact ⟨rfl, h.2⟩
  | succ i =>
    have hrest := h.rest i m hm
    omega

theorem HoldsNote.edit {m m' : ChatMessage} (h : HoldsNote m) (hedit : Edit m m') :
    HoldsNote m' := by
  have hcount := hedit.count
  by_cases hzero : noteTimes m' = 0
  · exact Or.inl hzero
  · rcases h with h | ⟨h, hsystem | ⟨hnote, hrole⟩⟩
    · omega
    · exact Or.inr ⟨by omega, Or.inl (hedit.role.trans hsystem)⟩
    · have hkept := (hedit.note hnote).resolve_right hzero
      rw [← hedit.role] at hrole
      exact Or.inr ⟨by omega, Or.inr ⟨hkept, hrole⟩⟩

theorem Edits.noteOnce (h : Edits messages messages') (hnote : NoteOnce messages) :
    NoteOnce messages' := by
  refine ⟨h.cleanCalls hnote.calls, ?_, ?_⟩
  · intro m' hm'
    obtain ⟨m, hm, hedit⟩ := h.source hm'
    exact (hnote.first m hm).edit hedit
  · intro i m' hm'
    obtain ⟨m, hm, hedit⟩ := h.source hm'
    have hcount := hedit.count
    have hzero := hnote.rest i m hm
    omega

/-! ## Conversations of one shape -/

theorem bare_carries {m m' : ChatMessage} (h : m'.bare = m.bare) (id : String) :
    carries m' id ↔ carries m id := by
  have hrole : m'.role = m.role := (ChatMessage.mk.inj h).1
  have hcalls : m'.toolCalls = m.toolCalls := (ChatMessage.mk.inj h).2.2.1
  rw [carries, carries, ChatMessage.calls, ChatMessage.calls, hrole, hcalls]

theorem bare_answers {m m' : ChatMessage} (h : m'.bare = m.bare) (id : String) :
    answers m' id ↔ answers m id := by
  have hrole : m'.role = m.role := (ChatMessage.mk.inj h).1
  have hid : m'.toolCallId = m.toolCallId := (ChatMessage.mk.inj h).2.2.2
  rw [answers, answers, hrole, hid]

/-- The two lists differ in the contents of messages only. -/
def SameShape (messages messages' : List ChatMessage) : Prop :=
  messages'.map ChatMessage.bare = messages.map ChatMessage.bare

theorem SameShape.symm (h : SameShape messages messages') : SameShape messages' messages :=
  Eq.symm h

theorem SameShape.source (h : SameShape messages messages') {i : ℕ} {m' : ChatMessage}
    (hm' : messages'[i]? = some m') : ∃ m, messages[i]? = some m ∧ m'.bare = m.bare := by
  have hi : (messages.map ChatMessage.bare)[i]? = some m'.bare := by
    rw [← h, List.getElem?_map, hm', Option.map_some]
  rw [List.getElem?_map] at hi
  obtain ⟨m, hm, e⟩ := Option.map_eq_some_iff.mp hi
  exact ⟨m, hm, e.symm⟩

theorem SameShape.answered (h : SameShape messages messages') (ha : Answered messages) :
    Answered messages' := by
  intro k t' id ht' hanswers
  obtain ⟨t, ht, hbare⟩ := h.source ht'
  obtain ⟨i, a, hlt, hi, hcarries⟩ := ha k t id ht ((bare_answers hbare id).mp hanswers)
  obtain ⟨a', hi', hbare'⟩ := h.symm.source hi
  exact ⟨i, a', hlt, hi', (bare_carries hbare' id).mp hcarries⟩

theorem SameShape.countP (h : SameShape messages messages') (i : ℕ) :
    (messages'.drop i).countP (fun m => m.role ≠ .system) =
      (messages.drop i).countP (fun m => m.role ≠ .system) := by
  have hbare : ∀ l : List ChatMessage, l.countP (fun m => m.role ≠ .system) =
      (l.map ChatMessage.bare).countP (fun m => m.role ≠ .system) := by
    intro l
    rw [List.countP_map]
    rfl
  rw [hbare, hbare (messages.drop i), List.map_drop, List.map_drop, h]

theorem SameShape.unsplit (h : SameShape messages messages') (hunsplit : Unsplit messages) :
    Unsplit messages' := by
  intro k t' id ht' hanswers
  obtain ⟨t, ht, hbare⟩ := h.source ht'
  rcases hunsplit k t id ht ((bare_answers hbare id).mp hanswers) with
    ⟨hid, hlater⟩ | ⟨i, a, hlt, hi, hcarries, hrecent⟩
  · refine Or.inl ⟨hid, ?_⟩
    intro j a' hlt hj' hcarries
    obtain ⟨a, hj, hbare'⟩ := h.source hj'
    exact hlater j a hlt hj ((bare_carries hbare' id).mp hcarries)
  · obtain ⟨a', hi', hbare'⟩ := h.symm.source hi
    refine Or.inr ⟨i, a', hlt, hi', (bare_carries hbare' id).mp hcarries, ?_⟩
    rw [h.countP]
    exact hrecent

theorem SameShape.select (h : SameShape messages messages') (places : List ℕ) :
    (select messages' places).map ChatMessage.bare = (select messages places).map ChatMessage.bare := by
  have hmap : ∀ l : List ChatMessage, (ContextBudget.select l places).map ChatMessage.bare =
      places.filterMap (fun i => (l.map ChatMessage.bare)[i]?) := by
    intro l
    rw [ContextBudget.select, List.map_filterMap]
    simp only [List.getElem?_map]
  rw [hmap, hmap, h]

theorem Edit.bare {m m' : ChatMessage} (h : Edit m m') : m'.bare = m.bare := by
  rw [ChatMessage.bare, ChatMessage.bare, h.role, h.toolCalls, h.toolCallId]

theorem Edits.sameShape (h : Edits messages messages') : SameShape messages messages' := by
  refine List.ext_getElem? ?_
  intro i
  rw [List.getElem?_map, List.getElem?_map]
  cases hi' : messages'[i]? with
  | none =>
    rw [List.getElem?_eq_none_iff, h.length, ← List.getElem?_eq_none_iff] at hi'
    rw [hi']
  | some m' =>
    obtain ⟨m, hm, hedit⟩ := h.source hi'
    rw [hm, Option.map_some, Option.map_some, hedit.bare]

/-! ## The latest user message -/

/-- A user message that is not the note. -/
def realUser (m : ChatMessage) : Bool := m.role = .user ∧ m.isNote = false

theorem latestUser_eq (messages : List ChatMessage) :
    latestUser messages = (indicesOf realUser messages).getLast? := rfl

theorem latestUser_eq_some_iff {i : ℕ} :
    latestUser messages = some i ↔ i ∈ indicesOf realUser messages ∧
      ∀ j ∈ indicesOf realUser messages, j ≤ i := by
  have hsorted := indicesOf_sorted realUser messages
  rw [latestUser_eq]
  constructor
  · intro h
    obtain ⟨before, e⟩ := List.getLast?_eq_some_iff.mp h
    rw [e] at hsorted ⊢
    refine ⟨List.mem_append_right _ List.mem_cons_self, ?_⟩
    intro j hj
    rcases List.mem_append.mp hj with hj | hj
    · exact ((List.pairwise_append.mp hsorted).2.2 j hj i List.mem_cons_self).le
    · exact (List.mem_singleton.mp hj).le
  · intro ⟨hi, hmax⟩
    cases hlast : (indicesOf realUser messages).getLast? with
    | none =>
      rw [List.getLast?_eq_none_iff.mp hlast] at hi
      cases hi
    | some j =>
      obtain ⟨before, e⟩ := List.getLast?_eq_some_iff.mp hlast
      rw [e] at hsorted hi hmax
      have hle := hmax j (List.mem_append_right _ List.mem_cons_self)
      rcases List.mem_append.mp hi with hi | hi
      · have hlt := (List.pairwise_append.mp hsorted).2.2 i hi j List.mem_cons_self
        omega
      · rw [List.mem_singleton.mp hi]

theorem Edits.latestUser (h : Edits messages messages') (hnote : NoteOnce messages) {i : ℕ}
    (hi : latestUser messages = some i) : latestUser messages' = some i := by
  obtain ⟨hmem, hmax⟩ := latestUser_eq_some_iff.mp hi
  obtain ⟨m, hm, hreal⟩ := mem_indicesOf.mp hmem
  obtain ⟨m', hm', hedit⟩ := h.target hm
  have huser := of_decide_eq_true hreal
  refine latestUser_eq_some_iff.mpr ⟨mem_indicesOf.mpr ⟨m', hm', decide_eq_true ?_⟩, ?_⟩
  · refine ⟨hedit.role.trans huser.1, ?_⟩
    by_contra hnote'
    have hnote := hedit.isNote (by simpa using hnote')
    rw [huser.2] at hnote
    cases hnote
  · intro j hj
    obtain ⟨u', hu', hreal'⟩ := mem_indicesOf.mp hj
    obtain ⟨u, hu, hedit'⟩ := h.source hu'
    have huser' := of_decide_eq_true hreal'
    by_cases hnote' : u.isNote = true
    · have hzero := (hnote.isNote hu hnote').1
      omega
    · refine hmax j (mem_indicesOf.mpr ⟨u, hu, decide_eq_true ⟨?_, by simpa using hnote'⟩⟩)
      exact hedit'.role.symm.trans huser'.1

end Haruspex.ContextBudget
