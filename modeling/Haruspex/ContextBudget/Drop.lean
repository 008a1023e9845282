import Haruspex.ContextBudget.Conversation

/-! What a drop leaves. The messages it removes are the first of those it may remove, so the calls it
leaves keep their results; the results it leaves have a call of their id somewhere, and the note goes
in once. -/
namespace Haruspex.ContextBudget
open JavaScript
set_option autoImplicit false

/-! ## The messages that survive -/

theorem select_append (messages more : List ChatMessage) {places : List ℕ}
    (h : ∀ i ∈ places, i < messages.length) : select (messages ++ more) places =
      select messages places := by
  refine List.filterMap_congr ?_
  intro i hi
  exact List.getElem?_append_left (h i hi)

theorem select_concat (messages : List ChatMessage) (places more : List ℕ) :
    select messages (places ++ more) = select messages places ++ select messages more :=
  List.filterMap_append

theorem select_zipIdx (q : ℕ → Bool) (messages : List ChatMessage) :
    (messages.zipIdx.filter (fun (_, i) => q i)).map Prod.fst =
      select messages ((List.range messages.length).filter q) := by
  induction messages using List.reverseRecOn with
  | nil => rfl
  | append_singleton messages m ih =>
    have hinside : ∀ i ∈ (List.range messages.length).filter q, i < messages.length := by
      intro i hi
      exact List.mem_range.mp (List.mem_filter.mp hi).1
    have hlast : select (messages ++ [m]) (bif q messages.length then [messages.length] else []) =
        bif q messages.length then [m] else [] := by
      cases q messages.length <;> simp [select]
    rw [List.zipIdx_append, List.filter_append, List.map_append, ih, List.length_append,
      List.length_singleton, List.range_succ, List.filter_append, List.filter_singleton, select_concat,
      select_append messages [m] hinside, hlast, Nat.zero_add]
    cases hq : q messages.length <;> simp [hq]

theorem filter_select (p : ChatMessage → Bool) (messages : List ChatMessage) (places : List ℕ) :
    (select messages places).filter p =
      select messages (places.filter (fun i => messages[i]?.any p)) := by
  induction places with
  | nil => rfl
  | cons i places ih =>
    rw [select] at ih ⊢
    rw [select, List.filterMap_cons, List.filter_cons]
    cases hm : messages[i]? with
    | none => simpa [select] using ih
    | some m =>
      cases hp : p m with
      | false => simpa [hp, select] using ih
      | true => simpa [hp, hm, select] using ih

/-- The ids that assistant messages carry. -/
def callIds (messages : List ChatMessage) : List String :=
  messages.flatMap (fun m => if m.role = .assistant then m.calls.map ToolCall.id else [])

theorem mem_callIds {messages : List ChatMessage} {id : String} :
    id ∈ callIds messages ↔ ∃ a ∈ messages, carries a id := by
  rw [callIds, List.mem_flatMap]
  refine exists_congr (fun a => and_congr_right (fun _ => ?_))
  rw [carries]
  by_cases hrole : a.role = .assistant
  · rw [if_pos hrole, List.mem_map]
    exact (and_iff_right hrole).symm
  · rw [if_neg hrole]
    exact ⟨fun h => absurd h List.not_mem_nil, fun h => absurd h.1 hrole⟩

/-- Whether the id a message answers, if it answers one, is among these. -/
def hasCall (ids : List String) (m : ChatMessage) : Bool :=
  ¬ (m.role = .tool ∧ ∃ id ∈ m.callId?, id ∉ ids)

theorem hasCall_iff {ids : List String} {m : ChatMessage} :
    hasCall ids m = true ↔ (m.role = .tool → ∀ id, m.callId? = some id → id ∈ ids) := by
  simp only [hasCall, decide_eq_true_iff, not_and, not_exists, not_not, Option.mem_def]

theorem sanitize_eq (messages : List ChatMessage) :
    sanitizeOrphanToolResults messages = messages.filter (hasCall (callIds messages)) := rfl

def remaining (messages : List ChatMessage) (dropped : List ℕ) : List ℕ :=
  (List.range messages.length).filter (fun i => i ∉ dropped)

/-- The places of the messages that are neither dropped nor left without a call. -/
def survivors (messages : List ChatMessage) (dropped : List ℕ) : List ℕ :=
  (remaining messages dropped).filter (fun i =>
    messages[i]?.any (hasCall (callIds (select messages (remaining messages dropped)))))

theorem dropLoop_start (messages : List ChatMessage) (target : ℕ) (candidates : List ℕ)
    (running : ℕ) : dropLoop messages target candidates running <+: candidates := by
  induction candidates generalizing running with
  | nil => exact List.prefix_refl []
  | cons i candidates ih =>
    rw [dropLoop]
    split
    · exact List.nil_prefix
    · exact List.cons_prefix_cons.mpr ⟨rfl, ih _⟩

/-- The messages a drop removes. -/
def turnsToDrop (messages : List ChatMessage) (target : ℕ) (tools : List ToolDefinition) : List ℕ :=
  dropLoop messages target (droppable messages) (estimateMessagesTokens messages tools)

theorem dropOldestTurns_eq (messages : List ChatMessage) (target : ℕ) (tools : List ToolDefinition) :
    (dropOldestTurns messages target tools).2 =
      if (turnsToDrop messages target tools).isEmpty then messages
      else noteDrop (select messages (survivors messages (turnsToDrop messages target tools))) := by
  unfold dropOldestTurns
  have hkept := select_zipIdx (fun i => i ∉ turnsToDrop messages target tools) messages
  unfold turnsToDrop at hkept ⊢
  dsimp only at hkept ⊢
  split
  · rfl
  · rw [hkept, sanitize_eq, filter_select]
    rfl

theorem dropTurns_eq (messages : List ChatMessage) (budget : ℕ) (tools : List ToolDefinition) :
    (dropTurns messages budget tools).2 = messages ∨
      ∃ dropped, dropped <+: droppable messages ∧ (dropTurns messages budget tools).2 =
        noteDrop (select messages (survivors messages dropped)) := by
  unfold dropTurns
  split
  · exact Or.inl rfl
  · rw [dropOldestTurns_eq]
    split
    · exact Or.inl rfl
    · exact Or.inr ⟨_, dropLoop_start messages _ (droppable messages) _, rfl⟩

variable {messages : List ChatMessage} {dropped : List ℕ}

theorem mem_remaining {i : ℕ} :
    i ∈ remaining messages dropped ↔ i ∉ dropped ∧ ∃ m, messages[i]? = some m := by
  rw [remaining, List.mem_filter, List.mem_range, decide_eq_true_iff, and_comm]
  refine and_congr_right (fun _ => ?_)
  simp [List.getElem?_eq_some_iff]

theorem mem_select {places : List ℕ} {m : ChatMessage} :
    m ∈ select messages places ↔ ∃ i ∈ places, messages[i]? = some m := List.mem_filterMap

theorem mem_survivors {i : ℕ} : i ∈ survivors messages dropped ↔
    i ∉ dropped ∧ ∃ m, messages[i]? = some m ∧ (m.role = .tool → ∀ id, m.callId? = some id →
      ∃ (j : ℕ) (a : ChatMessage), j ∉ dropped ∧ messages[j]? = some a ∧ carries a id) := by
  have hcalled : ∀ id, id ∈ callIds (select messages (remaining messages dropped)) ↔
      ∃ (j : ℕ) (a : ChatMessage), j ∉ dropped ∧ messages[j]? = some a ∧ carries a id := by
    intro id
    rw [mem_callIds]
    constructor
    · intro ⟨a, ha, hcarries⟩
      obtain ⟨j, hj, hja⟩ := mem_select.mp ha
      exact ⟨j, a, (mem_remaining.mp hj).1, hja, hcarries⟩
    · intro ⟨j, a, hj, hja, hcarries⟩
      exact ⟨a, mem_select.mpr ⟨j, mem_remaining.mpr ⟨hj, a, hja⟩, hja⟩, hcarries⟩
  rw [survivors, List.mem_filter, mem_remaining, Option.any_eq_true]
  simp only [hasCall_iff, hcalled]
  constructor
  · intro ⟨⟨hi, _⟩, m, hm, hcall⟩
    exact ⟨hi, m, hm, hcall⟩
  · intro ⟨hi, m, hm, hcall⟩
    exact ⟨⟨hi, m, hm⟩, m, hm, hcall⟩

theorem survivors_sorted (messages : List ChatMessage) (dropped : List ℕ) :
    (survivors messages dropped).Pairwise (· < ·) :=
  (List.pairwise_lt_range.filter _).filter _

theorem survivors_inside {i : ℕ} (hi : i ∈ survivors messages dropped) : i < messages.length := by
  obtain ⟨-, m, hm, -⟩ := mem_survivors.mp hi
  exact (List.getElem?_eq_some_iff.mp hm).1

/-- A message that is no tool result survives unless it is dropped. -/
theorem mem_survivors_of_role {i : ℕ} {m : ChatMessage} (hm : messages[i]? = some m)
    (hrole : m.role ≠ .tool) (hi : i ∉ dropped) : i ∈ survivors messages dropped :=
  mem_survivors.mpr ⟨hi, m, hm, fun h => absurd h hrole⟩

/-! ## Which messages are dropped -/

theorem mem_droppable {i : ℕ} : i ∈ droppable messages ↔
    i ∈ (nonSystemIdx messages).take ((nonSystemIdx messages).length - protectedTurns * 2) ∧
      some i ≠ latestUser messages := by
  rw [droppable, List.mem_filter, decide_eq_true_iff]

theorem droppable_sorted (messages : List ChatMessage) :
    (droppable messages).Pairwise (· < ·) :=
  ((indicesOf_sorted _ messages).sublist (List.take_sublist _ _)).filter _

theorem nonSystem_of_dropped (h : dropped <+: droppable messages) {i : ℕ} {m : ChatMessage}
    (hm : messages[i]? = some m) (hi : i ∈ dropped) : m.role ≠ .system := by
  have hmem := List.mem_of_mem_take (mem_droppable.mp (h.subset hi)).1
  obtain ⟨m', hm', hrole⟩ := mem_indicesOf.mp hmem
  rw [hm, Option.some_inj] at hm'
  rw [hm']
  exact (of_decide_eq_true hrole).1

/-- A call that a drop leaves stands after every message that it removes. -/
theorem not_dropped_after (h : dropped <+: droppable messages) (hnote : NoteOnce messages) {i k : ℕ}
    {a : ChatMessage} (ha : messages[i]? = some a) (hrole : a.role = .assistant) (hi : i ∉ dropped)
    (hlt : i < k) : k ∉ dropped := by
  intro hk
  have hno : a.isNote = false := by
    by_contra hnote'
    exact (hnote.isNote ha (by simpa using hnote')).2 hrole
  have hplace : i ∈ nonSystemIdx messages :=
    mem_indicesOf.mpr ⟨a, ha, decide_eq_true ⟨by rw [hrole]; decide, hno⟩⟩
  have huser : some i ≠ latestUser messages := by
    intro e
    obtain ⟨u, hu, hreal⟩ := mem_indicesOf.mp (latestUser_eq_some_iff.mp e.symm).1
    rw [ha, Option.some_inj] at hu
    rw [← hu] at hreal
    rw [(of_decide_eq_true hreal).1] at hrole
    cases hrole
  have htake := mem_of_lt_mem (List.take_prefix _ _) (indicesOf_sorted _ messages) hplace
    (mem_droppable.mp (h.subset hk)).1 hlt
  exact hi (mem_of_lt_mem h (droppable_sorted messages) (mem_droppable.mpr ⟨htake, huser⟩) hk hlt)

/-- A message among the last eight is not dropped. -/
theorem not_dropped_of_recent (h : dropped <+: droppable messages) {i : ℕ}
    (hrecent : (messages.drop i).countP (fun m => m.role ≠ .system) ≤ protectedTurns * 2) :
    i ∉ dropped := by
  intro hi
  have hmany := count_of_mem_take (mem_droppable.mp (h.subset hi)).1
  have hle : (messages.drop i).countP (fun m => m.role ≠ .system ∧ m.isNote = false) ≤
      (messages.drop i).countP (fun m => m.role ≠ .system) :=
    List.countP_mono_left (fun m _ hm => decide_eq_true (of_decide_eq_true hm).1)
  omega

theorem survivors_keeps (h : dropped <+: droppable messages) (hnote : NoteOnce messages) :
    Keeps messages (survivors messages dropped) := by
  refine ⟨survivors_sorted messages dropped, fun i hi => survivors_inside hi, ?_, ?_, ?_⟩
  · intro i m hm hsystem
    refine mem_survivors_of_role hm (by rw [hsystem]; decide) ?_
    intro hi
    exact nonSystem_of_dropped h hm hi hsystem
  · intro i hi
    obtain ⟨u, hu, hreal⟩ := mem_indicesOf.mp (latestUser_eq_some_iff.mp hi).1
    refine mem_survivors_of_role hu (by rw [(of_decide_eq_true hreal).1]; decide) ?_
    intro hdropped
    exact (mem_droppable.mp (h.subset hdropped)).2 hi.symm
  · intro i k a t id hi hlt ha ht hcarries hanswers
    have hi := (mem_survivors.mp hi).1
    refine mem_survivors.mpr ⟨not_dropped_after h hnote ha hcarries.1 hi hlt, t, ht, ?_⟩
    intro _ id' hid'
    -- The id that the sanitizing reads is the message's own, if it is not empty.
    obtain ⟨hid', -⟩ := Option.filter_eq_some_iff.mp hid'
    rw [hanswers.2, Option.some_inj] at hid'
    rw [← hid']
    exact ⟨i, a, hi, ha, hcarries⟩

/-- A result that a drop leaves has a call before it among the messages that are left. -/
theorem survivors_called (h : dropped <+: droppable messages) (hunsplit : Unsplit messages) {k : ℕ}
    {t : ChatMessage} {id : String} (hk : k ∈ survivors messages dropped)
    (ht : messages[k]? = some t) (hanswers : answers t id) :
    ∃ (i : ℕ) (a : ChatMessage), i ∈ survivors messages dropped ∧ i < k ∧ messages[i]? = some a ∧
      carries a id := by
  have hassistant : ∀ {a : ChatMessage}, carries a id → a.role ≠ .tool := by
    intro a hcarries
    rw [hcarries.1]
    decide
  rcases hunsplit k t id ht hanswers with ⟨hid, hlater⟩ | ⟨i, a, hlt, ha, hcarries, hrecent⟩
  · obtain ⟨hdropped, t', ht', hcalled⟩ := mem_survivors.mp hk
    rw [ht, Option.some_inj] at ht'
    rw [← ht'] at hcalled
    have hcall : t.callId? = some id := by
      rw [ChatMessage.callId?, hanswers.2]
      simp [hid]
    obtain ⟨j, a, hj, ha, hcarries⟩ := hcalled hanswers.1 id hcall
    rcases Nat.lt_trichotomy j k with hlt | heq | hgt
    · exact ⟨j, a, mem_survivors_of_role ha (hassistant hcarries) hj, hlt, ha, hcarries⟩
    · rw [heq, ht, Option.some_inj] at ha
      rw [← ha] at hcarries
      exact absurd hanswers.1 (hassistant hcarries)
    · exact absurd hcarries (hlater j a hgt ha)
  · have hi := not_dropped_of_recent h hrecent
    exact ⟨i, a, mem_survivors_of_role ha (hassistant hcarries) hi, hlt, ha, hcarries⟩

/-! ## The note -/

theorem noteDrop_bare (kept : List ChatMessage) :
    ∃ added, (added = [] ∨ added = [noteMessage]) ∧
      (noteDrop kept).map ChatMessage.bare = (added ++ kept).map ChatMessage.bare := by
  cases kept with
  | nil => exact ⟨[noteMessage], Or.inr rfl, rfl⟩
  | cons m kept =>
    rw [noteDrop]
    split
    · dsimp only
      split
      · exact ⟨[], Or.inl rfl, rfl⟩
      · exact ⟨[], Or.inl rfl, rfl⟩
    · split
      · exact ⟨[], Or.inl rfl, rfl⟩
      · exact ⟨[noteMessage], Or.inr rfl, rfl⟩

theorem noteTimes_noteMessage : noteTimes noteMessage = 1 := noteCount_note

theorem noteMessage_holdsNote : HoldsNote noteMessage :=
  Or.inr ⟨noteTimes_noteMessage, Or.inr ⟨(isNote_iff noteMessage).mpr rfl, by decide⟩⟩

theorem noteDrop_noteOnce {kept : List ChatMessage} (h : NoteOnce kept) :
    NoteOnce (noteDrop kept) := by
  have hadded : ∀ {l : List ChatMessage}, CleanCalls l → CleanCalls (noteMessage :: l) := by
    intro l hl m hm call hcall
    rcases List.mem_cons.mp hm with rfl | hm
    · cases hcall
    · exact hl m hm call hcall
  cases kept with
  | nil =>
    refine ⟨hadded h.calls, ?_, ?_⟩
    · intro m hm
      cases hm
      exact noteMessage_holdsNote
    · intro i m hm
      cases hm
  | cons m kept =>
    have hfirst := h.first m rfl
    rw [noteDrop]
    split
    · rename_i hsystem
      dsimp only
      split
      · exact h
      · rename_i hmissing
        have hzero : noteCount (messageText m.content) = 0 := by
          rw [noteCount_eq_zero_iff]
          simpa using hmissing
        refine ⟨?_, ?_, h.rest⟩
        · intro m' hm' call hcall
          rcases List.mem_cons.mp hm' with rfl | hm'
          · exact h.calls m List.mem_cons_self call hcall
          · exact h.calls m' (List.mem_cons_of_mem _ hm') call hcall
        · intro m' hm'
          cases hm'
          refine Or.inr ⟨?_, Or.inl hsystem⟩
          rw [noteTimes, messageText, noteCount_folded, hzero]
    · rename_i hsystem
      split
      · exact h
      · rename_i hother
        refine ⟨hadded h.calls, ?_, ?_⟩
        · intro m' hm'
          cases hm'
          exact noteMessage_holdsNote
        · intro i m' hm'
          rw [List.getElem?_cons_succ] at hm'
          cases i with
          | zero =>
            cases hm'
            rcases hfirst with hzero | ⟨-, hrole | ⟨hnote, -⟩⟩
            · exact hzero
            · exact absurd hrole hsystem
            · exact absurd hnote hother
          | succ i => exact h.rest i m' hm'

end Haruspex.ContextBudget
