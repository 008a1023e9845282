import Haruspex.ContextBudget.Note

/-! What stubbing, cutting and the last resort do to the messages: each stays at its place, with its
role, its calls and the id it answers, and does not gain a drop note. -/
namespace Haruspex.ContextBudget
open JavaScript
set_option autoImplicit false

/-- How often the drop note occurs in a message. -/
def noteTimes (m : ChatMessage) : ℕ := noteCount (messageText m.content)

structure Edit (m m' : ChatMessage) : Prop where
  role : m'.role = m.role
  toolCalls : m'.toolCalls = m.toolCalls
  toolCallId : m'.toolCallId = m.toolCallId
  content : m' = m ∨ m'.isNote = false
  count : noteTimes m' ≤ noteTimes m
  note : m.isNote = true → m'.isNote = true ∨ noteTimes m' = 0

theorem isNote_iff (m : ChatMessage) : m.isNote = true ↔ m.content = .text droppedTurnsNote := by
  simp [ChatMessage.isNote]

theorem isNote_text (m : ChatMessage) {text : String} (h : text ≠ droppedTurnsNote) :
    { m with content := .text text }.isNote = false := by
  simp [ChatMessage.isNote, h]

theorem noteTimes_note {m : ChatMessage} (h : m.isNote = true) : noteTimes m = 1 := by
  rw [noteTimes, (isNote_iff m).mp h]
  exact noteCount_note

theorem isNote_of_noteTimes {m : ChatMessage} (h : noteTimes m = 0) : m.isNote = false := by
  by_contra hnote
  rw [noteTimes_note (by simpa using hnote)] at h
  cases h

theorem Edit.refl (m : ChatMessage) : Edit m m :=
  ⟨rfl, rfl, rfl, Or.inl rfl, le_rfl, Or.inl⟩

theorem Edit.isNote {m m' : ChatMessage} (h : Edit m m') (hnote : m'.isNote = true) :
    m.isNote = true := by
  rcases h.content with e | e
  · rw [← e]
    exact hnote
  · rw [hnote] at e
    cases e

theorem Edit.trans {m m' m'' : ChatMessage} (h : Edit m m') (h' : Edit m' m'') : Edit m m'' := by
  refine ⟨h'.role.trans h.role, h'.toolCalls.trans h.toolCalls, h'.toolCallId.trans h.toolCallId,
    ?_, h'.count.trans h.count, ?_⟩
  · rcases h'.content with e | e
    · rw [e]
      exact h.content
    · exact Or.inr e
  · intro hnote
    rcases h.note hnote with hkept | hgone
    · exact h'.note hkept
    · have hle := h'.count
      exact Or.inr (by omega)

/-- A shorter text in place of a message's content is an edit of it. -/
theorem Edit.of_shorter {m m' : ChatMessage} {text : String} (h : Edit m m')
    (hshort : Shorter (messageText m.content) text) :
    Edit m { m' with content := .text text } := by
  refine ⟨h.role, h.toolCalls, h.toolCallId, Or.inr (isNote_text m' hshort.ne), hshort.count, ?_⟩
  intro hnote
  refine Or.inr (hshort.note ?_)
  rw [(isNote_iff m).mp hnote]
  rfl

/-! ## Edited lists -/

structure Edits (messages messages' : List ChatMessage) : Prop where
  length : messages'.length = messages.length
  each : ∀ (i : ℕ) m m', messages[i]? = some m → messages'[i]? = some m' → Edit m m'

variable {messages messages' messages'' : List ChatMessage}

theorem Edits.refl (messages : List ChatMessage) : Edits messages messages := by
  refine ⟨rfl, ?_⟩
  intro i m m' hm hm'
  rw [hm, Option.some_inj] at hm'
  rw [← hm']
  exact Edit.refl m

/-- The message that an edited one came from. -/
theorem Edits.source (h : Edits messages messages') {i : ℕ} {m' : ChatMessage}
    (hm' : messages'[i]? = some m') : ∃ m, messages[i]? = some m ∧ Edit m m' := by
  have hlt := (List.getElem?_eq_some_iff.mp hm').1
  rw [h.length] at hlt
  have hm := List.getElem?_eq_getElem hlt
  exact ⟨messages[i], hm, h.each i _ _ hm hm'⟩

/-- What an edited message has become. -/
theorem Edits.target (h : Edits messages messages') {i : ℕ} {m : ChatMessage}
    (hm : messages[i]? = some m) : ∃ m', messages'[i]? = some m' ∧ Edit m m' := by
  have hlt := (List.getElem?_eq_some_iff.mp hm).1
  rw [← h.length] at hlt
  have hm' := List.getElem?_eq_getElem hlt
  exact ⟨messages'[i], hm', h.each i _ _ hm hm'⟩

theorem Edits.trans (h : Edits messages messages') (h' : Edits messages' messages'') :
    Edits messages messages'' := by
  refine ⟨h'.length.trans h.length, ?_⟩
  intro i m m'' hm hm''
  obtain ⟨m', hm', hedit⟩ := h'.source hm''
  exact (h.each i m m' hm hm').trans hedit

theorem Edits.modify (h : Edits messages messages') (i : ℕ) (f : ChatMessage → ChatMessage)
    (hf : ∀ m m', messages[i]? = some m → Edit m m' → Edit m (f m')) :
    Edits messages (messages'.modify i f) := by
  refine ⟨(List.length_modify _ _ _).trans h.length, ?_⟩
  intro j m m'' hm hm''
  obtain ⟨m', hm', hedit⟩ := h.target hm
  rw [List.getElem?_modify, hm', Option.map_eq_map, Option.map_some, Option.some_inj] at hm''
  rw [← hm'']
  by_cases hij : i = j
  · rw [if_pos hij]
    rw [← hij] at hm
    exact hf m m' hm hedit
  · rw [if_neg hij]
    exact hedit

theorem Edits.setContent (h : Edits messages messages') (i : ℕ) {text : String}
    (htext : ∀ m, messages[i]? = some m → Shorter (messageText m.content) text) :
    Edits messages (setContent messages' i text) :=
  h.modify i _ (fun _ _ hm hedit => hedit.of_shorter (htext _ hm))

/-! ## Stubbing -/

/-- No tool call is described by a text that holds the note. -/
def CleanCalls (messages : List ChatMessage) : Prop :=
  ∀ m ∈ messages, ∀ call ∈ m.calls, noteCount (describeCall call) = 0

theorem Edits.cleanCalls (h : Edits messages messages') (hclean : CleanCalls messages) :
    CleanCalls messages' := by
  intro m' hmem call hcall
  obtain ⟨i, hm'⟩ := List.mem_iff_getElem?.mp hmem
  obtain ⟨m, hm, hedit⟩ := h.source hm'
  refine hclean m (List.mem_of_getElem? hm) call ?_
  rw [ChatMessage.calls, ← hedit.toolCalls]
  exact hcall

theorem noteCount_describeToolCall (h : CleanCalls messages) (idx : ℕ) :
    noteCount (describeToolCall messages idx) = 0 := by
  unfold describeToolCall
  split
  · rfl
  · split
    · rfl
    · rename_i call hfound
      obtain ⟨m, hm, hcall⟩ := List.exists_of_findSome?_eq_some hfound
      have hmem := List.mem_of_mem_take (List.mem_reverse.mp hm)
      exact h m hmem call (List.mem_of_find?_eq_some hcall)

theorem stubLoop_edits (h : Edits messages messages') (hclean : CleanCalls messages) (budget : ℕ)
    (candidates : List TrimCandidate) (running : ℤ) (trimmed : Bool) :
    Edits messages (stubLoop budget candidates running trimmed messages').2 := by
  induction candidates generalizing running trimmed messages' with
  | nil => exact h
  | cons c candidates ih =>
    rw [stubLoop]
    split
    · exact h
    · refine ih (h.setContent c.idx ?_) _ _
      intro m _
      exact stub_shorter _ c.text (noteCount_describeToolCall (h.cleanCalls hclean) c.idx)

theorem trimOldToolMessages_edits (hclean : CleanCalls messages) (budget : ℕ)
    (tools : List ToolDefinition) :
    Edits messages (trimOldToolMessages messages (some budget) tools).2 := by
  unfold trimOldToolMessages
  dsimp only
  split
  · exact Edits.refl messages
  · split
    · exact Edits.refl messages
    · exact stubLoop_edits (Edits.refl messages) hclean budget _ _ _

/-! ## Cutting -/

/-- What the guard knows of the messages it is about to cut. -/
def Captured (messages : List ChatMessage) (c : OversizedMessage) : Prop :=
  ∀ m, messages[c.i]? = some m → m.content = .text c.text

theorem oversized_captured {cap i : ℕ} {m : ChatMessage} {c : OversizedMessage}
    (hm : messages[i]? = some m) (h : oversized? cap m i = some c) : Captured messages c := by
  unfold oversized? at h
  split at h
  · rename_i text htext
    split at h
    · cases h
      intro m' hm'
      rw [hm, Option.some_inj] at hm'
      rw [← hm']
      exact htext
    · cases h
  · cases h

theorem cutLoop_edits (h : Edits messages messages') (effectiveBudget : ℕ)
    (tools : List ToolDefinition) (maxBytes : ℕ) (candidates : List OversizedMessage)
    (hcaptured : ∀ c ∈ candidates, Captured messages c) (truncated : ℕ) :
    Edits messages (cutLoop effectiveBudget tools maxBytes candidates truncated messages').2 := by
  induction candidates generalizing truncated messages' with
  | nil => exact h
  | cons c candidates ih =>
    have hrest := fun c hc => hcaptured c (List.mem_cons_of_mem _ hc)
    rw [cutLoop]
    split
    · exact h
    · dsimp only
      split
      · rename_i hcut
        refine ih (h.setContent c.i ?_) hrest _
        intro m hm
        rw [hcaptured c List.mem_cons_self m hm]
        exact truncate_shorter (hint_chars c.role) hcut
      · exact ih h hrest _

theorem truncateOversized_edits (messages : List ChatMessage) (budget : ℕ)
    (tools : List ToolDefinition) :
    Edits messages (truncateOversized messages budget tools).2 := by
  unfold truncateOversized
  refine cutLoop_edits (Edits.refl messages) budget tools _ _ ?_ 0
  intro c hc
  rw [List.mem_insertionSort, List.mem_filterMap] at hc
  obtain ⟨⟨m, i⟩, hm, hc⟩ := hc
  exact oversized_captured (List.mk_mem_zipIdx_iff_getElem?.mp hm) hc

theorem shorten_edits (hclean : CleanCalls messages) (budget : ℕ) (tools : List ToolDefinition) :
    Edits messages (shorten messages budget tools).2.2 := by
  unfold shorten
  split
  · have htrim := trimOldToolMessages_edits hclean budget tools
    dsimp only
    split
    · exact htrim
    · exact htrim.trans (truncateOversized_edits _ budget tools)
  · have hcut := truncateOversized_edits messages budget tools
    dsimp only
    split
    · exact hcut
    · exact hcut.trans (trimOldToolMessages_edits (hcut.cleanCalls hclean) budget tools)

/-! ## The last resort -/

theorem halve_edit (m : ChatMessage) : Edit m (halve m) := by
  unfold halve
  split
  · exact Edit.refl m
  · rename_i text htext
    have hmessage : messageText m.content = text := by rw [htext]; rfl
    dsimp only
    split
    · exact (Edit.refl m).of_shorter (removed_shorter _)
    · refine (Edit.refl m).of_shorter ?_
      split
      · rename_i hcut
        rw [hmessage]
        exact truncate_shorter shellHint_chars hcut
      · exact removed_shorter _

theorem forceLoop_edits (h : Edits messages messages') (budget : ℕ) (tools : List ToolDefinition)
    (guard : ℕ) (cutSystem : Bool) :
    Edits messages (forceLoop budget tools guard cutSystem messages').2 := by
  induction guard generalizing cutSystem messages' with
  | zero => exact h
  | succ guard ih =>
    rw [forceLoop]
    split
    · exact h
    · split
      · exact h
      · refine ih (h.modify _ halve ?_) _
        intro m m' _ hedit
        exact hedit.trans (halve_edit m')

theorem forceFit_edits (messages : List ChatMessage) (budget : ℕ) (tools : List ToolDefinition) :
    Edits messages (forceFit messages budget tools).2 :=
  forceLoop_edits (Edits.refl messages) budget tools 100 false

end Haruspex.ContextBudget
