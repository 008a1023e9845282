import Haruspex.ContextBudget.Drop
import Haruspex.ContextBudget.ForceFit

/-! What the guard leaves of a conversation, and what becomes of the note over any number of sends:
shortening and the last resort edit single messages, and between them comes at most one drop. -/
namespace Haruspex.ContextBudget
open JavaScript
set_option autoImplicit false

variable {messages messages' : List ChatMessage} {places : List ℕ}

theorem select_range (messages : List ChatMessage) :
    select messages (List.range messages.length) = messages := by
  induction messages using List.reverseRecOn with
  | nil => rfl
  | append_singleton messages m ih =>
    have hinside : ∀ i ∈ List.range messages.length, i < messages.length := by
      intro i hi
      exact List.mem_range.mp hi
    rw [List.length_append, List.length_singleton, List.range_succ, select_concat,
      select_append messages [m] hinside, ih]
    simp [select]

theorem getElem?_select (h : ∀ i ∈ places, i < messages.length) (p : ℕ) :
    (select messages places)[p]? = places[p]?.bind (fun i => messages[i]?) := by
  induction places generalizing p with
  | nil => rfl
  | cons i places ih =>
    obtain ⟨m, hm⟩ : ∃ m, messages[i]? = some m :=
      ⟨_, List.getElem?_eq_getElem (h i List.mem_cons_self)⟩
    have hcons : select messages (i :: places) = m :: select messages places := by
      rw [select, List.filterMap_cons_some hm, select]
    rw [hcons]
    cases p with
    | zero => exact hm.symm
    | succ p => exact ih (fun j hj => h j (List.mem_cons_of_mem i hj)) p

/-! ## Answered conversations -/

theorem Answered.tail {m : ChatMessage} (h : Answered (m :: messages)) (hrole : m.role ≠ .assistant) :
    Answered messages := by
  intro k t id ht hanswers
  obtain ⟨i, a, hlt, ha, hcarries⟩ := h (k + 1) t id ht hanswers
  cases i with
  | zero =>
    cases ha
    exact absurd hcarries.1 hrole
  | succ i => exact ⟨i, a, by omega, ha, hcarries⟩

theorem Answered.cons (h : Answered messages) {m : ChatMessage} (hrole : m.role ≠ .tool) :
    Answered (m :: messages) := by
  intro k t id ht hanswers
  cases k with
  | zero =>
    cases ht
    exact absurd hanswers.1 hrole
  | succ k =>
    obtain ⟨i, a, hlt, ha, hcarries⟩ := h k t id ht hanswers
    exact ⟨i + 1, a, by omega, ha, hcarries⟩

/-- The messages at some places are answered if each result among them has a call of its id at one of
the places before it. -/
theorem answered_select_iff (hsorted : places.Pairwise (· < ·))
    (hinside : ∀ i ∈ places, i < messages.length) :
    Answered (select messages places) ↔
      ∀ (k : ℕ) t id, k ∈ places → messages[k]? = some t → answers t id →
        ∃ (i : ℕ) (a : ChatMessage), i ∈ places ∧ i < k ∧ messages[i]? = some a ∧ carries a id := by
  -- The order of the places is the order of the messages at them.
  have hdown : ∀ {p q i k : ℕ}, places[p]? = some i → places[q]? = some k → (p < q ↔ i < k) := by
    intro p q i k hp hq
    obtain ⟨hp', hpi⟩ := List.getElem?_eq_some_iff.mp hp
    obtain ⟨hq', hqk⟩ := List.getElem?_eq_some_iff.mp hq
    rcases Nat.lt_trichotomy p q with hlt | heq | hgt
    · have hlt' := List.pairwise_iff_getElem.mp hsorted p q hp' hq' hlt
      omega
    · subst heq
      omega
    · have hgt' := List.pairwise_iff_getElem.mp hsorted q p hq' hp' hgt
      omega
  constructor
  · intro h k t id hk ht hanswers
    obtain ⟨q, hq⟩ := List.mem_iff_getElem?.mp hk
    obtain ⟨p, a, hlt, ha, hcarries⟩ := h q t id (by rw [getElem?_select hinside, hq]; exact ht) hanswers
    rw [getElem?_select hinside] at ha
    obtain ⟨i, hp, ha⟩ := Option.bind_eq_some_iff.mp ha
    exact ⟨i, a, List.mem_of_getElem? hp, (hdown hp hq).mp hlt, ha, hcarries⟩
  · intro h q t id ht hanswers
    rw [getElem?_select hinside] at ht
    obtain ⟨k, hq, ht⟩ := Option.bind_eq_some_iff.mp ht
    obtain ⟨i, a, hi, hlt, ha, hcarries⟩ := h k t id (List.mem_of_getElem? hq) ht hanswers
    obtain ⟨p, hp⟩ := List.mem_iff_getElem?.mp hi
    refine ⟨p, a, (hdown hp hq).mpr hlt, ?_, hcarries⟩
    rw [getElem?_select hinside, hp]
    exact ha

/-! ## The note -/

theorem noteOnce_select (h : NoteOnce messages) (hsorted : places.Pairwise (· < ·))
    (hinside : ∀ i ∈ places, i < messages.length) : NoteOnce (select messages places) := by
  refine ⟨?_, ?_, ?_⟩
  · intro m hm
    obtain ⟨i, -, hi⟩ := mem_select.mp hm
    exact h.calls m (List.mem_of_getElem? hi)
  · intro m hm
    rw [getElem?_select hinside] at hm
    obtain ⟨i, -, hi⟩ := Option.bind_eq_some_iff.mp hm
    cases i with
    | zero => exact h.first m hi
    | succ i => exact Or.inl (h.rest i m hi)
  · intro p m hm
    rw [getElem?_select hinside] at hm
    obtain ⟨i, hp, hi⟩ := Option.bind_eq_some_iff.mp hm
    -- Only the first of the places can be the leading one.
    obtain ⟨hp', hpi⟩ := List.getElem?_eq_some_iff.mp hp
    have hlt := List.pairwise_iff_getElem.mp hsorted 0 (p + 1) (by omega) hp' (by omega)
    cases i with
    | zero => omega
    | succ i => exact h.rest i m hi

/-! ## One call of the guard -/

theorem keeps_all (messages : List ChatMessage) : Keeps messages (List.range messages.length) := by
  have hmem : ∀ {i : ℕ} {m : ChatMessage}, messages[i]? = some m → i ∈ List.range messages.length := by
    intro i m hm
    exact List.mem_range.mpr (List.getElem?_eq_some_iff.mp hm).1
  refine ⟨List.pairwise_lt_range, fun i hi => List.mem_range.mp hi, fun i m hm _ => hmem hm, ?_,
    fun i k a t id _ _ _ ht _ _ => hmem ht⟩
  intro i hi
  obtain ⟨m, hm, -⟩ := mem_indicesOf.mp (latestUser_eq_some_iff.mp hi).1
  exact hmem hm

theorem WellFormed.refl (h : Answered messages) : WellFormed messages messages := by
  refine ⟨h, [], List.range messages.length, Or.inl rfl, keeps_all messages, ?_⟩
  rw [List.nil_append, select_range]

theorem dropTurns_wellFormed (hanswered : Answered messages) (hunsplit : Unsplit messages)
    (hnote : NoteOnce messages) (budget : ℕ) (tools : List ToolDefinition) :
    WellFormed messages (dropTurns messages budget tools).2 := by
  rcases dropTurns_eq messages budget tools with e | ⟨dropped, hdropped, e⟩
  · rw [e]
    exact WellFormed.refl hanswered
  · have hkeeps := survivors_keeps hdropped hnote
    obtain ⟨added, hadded, hshape⟩ := noteDrop_bare (select messages (survivors messages dropped))
    have hleft := (answered_select_iff hkeeps.sorted hkeeps.inside).mpr
      (fun k t id hk ht hanswers => survivors_called hdropped hunsplit hk ht hanswers)
    have hboth : Answered (added ++ select messages (survivors messages dropped)) := by
      rcases hadded with rfl | rfl
      · exact hleft
      · exact hleft.cons (by decide)
    rw [e]
    exact ⟨SameShape.answered hshape hboth, added, _, hadded, hkeeps, hshape⟩

theorem dropTurns_noteOnce (hnote : NoteOnce messages) (budget : ℕ) (tools : List ToolDefinition) :
    NoteOnce (dropTurns messages budget tools).2 := by
  rcases dropTurns_eq messages budget tools with e | ⟨dropped, hdropped, e⟩
  · rw [e]
    exact hnote
  · have hkeeps := survivors_keeps hdropped hnote
    rw [e]
    exact noteDrop_noteOnce (noteOnce_select hnote hkeeps.sorted hkeeps.inside)

theorem Keeps.of_edits (hedits : Edits messages messages') (hnote : NoteOnce messages)
    (h : Keeps messages' places) : Keeps messages places := by
  refine ⟨h.sorted, ?_, ?_, ?_, ?_⟩
  · intro i hi
    rw [← hedits.length]
    exact h.inside i hi
  · intro i m hm hsystem
    obtain ⟨m', hm', hedit⟩ := hedits.target hm
    exact h.system i m' hm' (hedit.role.trans hsystem)
  · intro i hi
    exact h.latest i (hedits.latestUser hnote hi)
  · intro i k a t id hi hlt ha ht hcarries hanswers
    obtain ⟨a', ha', hedit⟩ := hedits.target ha
    obtain ⟨t', ht', hedit'⟩ := hedits.target ht
    exact h.results i k a' t' id hi hlt ha' ht' ((bare_carries hedit.bare id).mpr hcarries)
      ((bare_answers hedit'.bare id).mpr hanswers)

/-- Edits before and after it make no difference to what a drop leaves. -/
theorem WellFormed.edits {dropped forced : List ChatMessage} (hedits : Edits messages messages')
    (hnote : NoteOnce messages) (h : WellFormed messages' dropped) (hforced : Edits dropped forced) :
    WellFormed messages forced := by
  obtain ⟨added, places, hadded, hkeeps, hshape⟩ := h.kept
  refine ⟨hforced.sameShape.answered h.answered, added, places, hadded,
    hkeeps.of_edits hedits hnote, ?_⟩
  rw [hforced.sameShape, hshape, List.map_append, List.map_append, hedits.sameShape.select]

/-- The guard does nothing, or takes all its steps. -/
theorem fit_eq (messages : List ChatMessage) (contextSize : ℤ) (opts : FitOptions) :
    (fitMessagesToBudget messages contextSize opts).2 = messages ∨
      ∃ budget, (fitMessagesToBudget messages contextSize opts).2 =
        (forceFit (beforeForce messages budget opts.tools) budget opts.tools).2 := by
  by_cases hctx : 0 < contextSize
  · rw [fit_messages hctx]
    split
    · exact Or.inl rfl
    · exact Or.inr ⟨_, rfl⟩
  · rw [fitMessagesToBudget, if_pos (by omega)]
    exact Or.inl rfl

theorem fit_wellFormed (hanswered : Answered messages) (hunsplit : Unsplit messages)
    (hnote : NoteOnce messages) (contextSize : ℤ) (opts : FitOptions) :
    WellFormed messages (fitMessagesToBudget messages contextSize opts).2 := by
  rcases fit_eq messages contextSize opts with e | ⟨budget, e⟩
  · rw [e]
    exact WellFormed.refl hanswered
  · have hshort := shorten_edits hnote.calls budget opts.tools
    have hshape := hshort.sameShape
    have hdrop := dropTurns_wellFormed (hshape.answered hanswered) (hshape.unsplit hunsplit)
      (hshort.noteOnce hnote) budget opts.tools
    rw [e]
    exact hdrop.edits hshort hnote (forceFit_edits _ budget opts.tools)

/-! ## Any number of sends -/

theorem fit_noteOnce (hnote : NoteOnce messages) (contextSize : ℤ) (opts : FitOptions) :
    NoteOnce (fitMessagesToBudget messages contextSize opts).2 := by
  rcases fit_eq messages contextSize opts with e | ⟨budget, e⟩
  · rw [e]
    exact hnote
  · have hshort := (shorten_edits hnote.calls budget opts.tools).noteOnce hnote
    rw [e]
    exact (forceFit_edits _ budget opts.tools).noteOnce (dropTurns_noteOnce hshort budget opts.tools)

/-- The messages after the guard has run once for each of these sends. -/
def guarded (messages : List ChatMessage) (sends : List (ℤ × FitOptions)) : List ChatMessage :=
  sends.foldl (fun ms (contextSize, opts) => (fitMessagesToBudget ms contextSize opts).2) messages

theorem guarded_noteOnce (hnote : NoteOnce messages) (sends : List (ℤ × FitOptions)) :
    NoteOnce (guarded messages sends) := by
  induction sends generalizing messages with
  | nil => exact hnote
  | cons send sends ih => exact ih (fit_noteOnce hnote send.1 send.2)

end Haruspex.ContextBudget
