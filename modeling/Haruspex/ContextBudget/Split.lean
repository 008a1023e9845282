import Haruspex.ContextBudget.WellFormed

/-! When a drop comes between a call and its result. The ids of a conversation decide whether one can:
where they allow it, the messages can be of such sizes that one does. -/
namespace Haruspex.ContextBudget
open JavaScript
set_option autoImplicit false

/-! ## Messages that only a drop touches -/

def fixedText (n : ℕ) : String := "[Trimmed:" ++ String.ofList (List.replicate n 'a')

/-- Content in parts is not cut, and a result with this text counts as stubbed. -/
def fixedContent (n : ℕ) : MessageContent := .parts [.text (fixedText n)]

theorem messageText_fixedContent (n : ℕ) : messageText (fixedContent n) = fixedText n := rfl

def Fixed (messages : List ChatMessage) : Prop :=
  ∀ m ∈ messages, ∃ n, m.content = fixedContent n

variable {messages : List ChatMessage} {tools : List ToolDefinition} {budget : ℕ}

theorem trimCandidates_fixed (h : Fixed messages) : trimCandidates messages = [] := by
  unfold trimCandidates
  dsimp only
  split
  · rfl
  · rw [List.filterMap_eq_nil_iff]
    intro i _
    cases hm : messages[i]? with
    | none => rfl
    | some m =>
      obtain ⟨n, hn⟩ := h m (List.mem_of_getElem? hm)
      have hstub : startsWith (messageText m.content) "[Trimmed:" = true := by
        rw [hn, messageText_fixedContent, fixedText, startsWith, String.toList_append]
        exact decide_eq_true (List.prefix_append _ _)
      rw [Option.bind_some, if_pos hstub]

theorem shorten_fixed (h : Fixed messages) : (shorten messages budget tools).2.2 = messages := by
  refine shorten_idle (trimCandidates_fixed h) ?_
  intro i m hm
  obtain ⟨n, hn⟩ := h m (List.mem_of_getElem? hm)
  rw [oversized?, hn]
  rfl

/-- A conversation of the same shape with such contents, the one at `j` the longer by `n` bytes. -/
def weighted (messages : List ChatMessage) (j n : ℕ) : List ChatMessage :=
  messages.mapIdx (fun i m => { m with content := fixedContent (if i = j then n else 0) })

theorem getElem?_weighted (messages : List ChatMessage) (j n i : ℕ) :
    (weighted messages j n)[i]? = messages[i]?.map
      (fun m => { m with content := fixedContent (if i = j then n else 0) }) :=
  List.getElem?_mapIdx

theorem weighted_fixed (messages : List ChatMessage) (j n : ℕ) : Fixed (weighted messages j n) := by
  intro m' hm'
  obtain ⟨i, hi⟩ := List.mem_iff_getElem?.mp hm'
  rw [getElem?_weighted] at hi
  obtain ⟨m, -, rfl⟩ := Option.map_eq_some_iff.mp hi
  exact ⟨_, rfl⟩

theorem weighted_sameShape (messages : List ChatMessage) (j n : ℕ) :
    SameShape messages (weighted messages j n) := by
  refine List.ext_getElem? ?_
  intro i
  rw [List.getElem?_map, List.getElem?_map, getElem?_weighted, Option.map_map]
  rfl

theorem noteCount_fixedText (n : ℕ) : noteCount (fixedText n) = 0 := by
  refine noteCount_of_missing (c := 'O') (by decide) (not_mem_append (by decide) ?_)
  rw [String.toList_ofList]
  intro h
  cases List.eq_of_mem_replicate h

theorem Fixed.noteTimes (h : Fixed messages) {m : ChatMessage} (hm : m ∈ messages) :
    noteTimes m = 0 := by
  obtain ⟨n, hn⟩ := h m hm
  rw [ContextBudget.noteTimes, hn]
  exact noteCount_fixedText n

theorem weighted_noteOnce (h : CleanCalls messages) (j n : ℕ) : NoteOnce (weighted messages j n) := by
  have hfixed := weighted_fixed messages j n
  refine ⟨?_, fun m hm => Or.inl (hfixed.noteTimes (List.mem_of_getElem? hm)),
    fun i m hm => hfixed.noteTimes (List.mem_of_getElem? hm)⟩
  intro m' hm' call hcall
  obtain ⟨i, hi⟩ := List.mem_iff_getElem?.mp hm'
  rw [getElem?_weighted] at hi
  obtain ⟨m, hm, rfl⟩ := Option.map_eq_some_iff.mp hi
  exact h m (List.mem_of_getElem? hm) call hcall

/-! ## How far a drop goes -/

def tokensAt (messages : List ChatMessage) (i : ℕ) : ℕ :=
  (messages[i]?.map messageTokens).getD 0

theorem estimate_eq (messages : List ChatMessage) (tools : List ToolDefinition) :
    estimateMessagesTokens messages tools =
      ((List.range messages.length).map (tokensAt messages)).sum + toolsTokens tools := by
  have hmap : messages.map messageTokens = (List.range messages.length).map (tokensAt messages) := by
    refine List.ext_getElem (by simp) ?_
    intro i hi hi'
    rw [List.length_map] at hi
    simp [tokensAt, hi]
  rw [estimateMessagesTokens, hmap]

theorem dropLoop_through {target j running : ℕ} {before after : List ℕ}
    (hmore : target + (before.map (tokensAt messages)).sum < running)
    (hdone : running ≤ target + (before.map (tokensAt messages)).sum + tokensAt messages j) :
    dropLoop messages target (before ++ j :: after) running = before ++ [j] := by
  induction before generalizing running with
  | nil =>
    rw [List.map_nil, List.sum_nil] at hmore hdone
    rw [List.nil_append, List.nil_append, dropLoop, if_neg (by omega), ← tokensAt]
    cases after with
    | nil => rfl
    | cons i after => rw [dropLoop, if_pos (by omega)]
  | cons i before ih =>
    rw [List.map_cons, List.sum_cons] at hmore hdone
    rw [List.cons_append, List.cons_append, dropLoop, if_neg (by omega), ← tokensAt,
      ih (by omega) (by omega)]

theorem droppable_sublist (messages : List ChatMessage) :
    (droppable messages).Sublist (List.range messages.length) :=
  (List.filter_sublist.trans (List.take_sublist _ _)).trans List.filter_sublist

/-- A drop goes as far as a message that is larger than what is to be left, all others together being
no larger than that. -/
theorem turnsToDrop_eq {target others j : ℕ} {before after : List ℕ}
    (hplace : droppable messages = before ++ j :: after)
    (hrest : estimateMessagesTokens messages tools ≤ others + tokensAt messages j)
    (hothers : others ≤ target) (hlarge : target < tokensAt messages j) :
    turnsToDrop messages target tools = before ++ [j] := by
  have hsub : (before ++ [j]).Sublist (List.range messages.length) := by
    refine List.Sublist.trans ?_ (droppable_sublist messages)
    rw [hplace]
    exact (List.Sublist.refl before).append ((List.nil_sublist after).cons_cons j)
  have hsum := (hsub.map (tokensAt messages)).sum_le_sum (fun _ _ => Nat.zero_le _)
  rw [List.map_append, List.sum_append, List.map_singleton, List.sum_singleton] at hsum
  have htotal := estimate_eq messages tools
  rw [turnsToDrop, hplace]
  exact dropLoop_through (by omega) (by omega)

theorem sum_off {f g : ℕ → ℕ} {l : List ℕ} {j : ℕ} (hl : l.Nodup) (h : ∀ i, i ≠ j → f i = g i) :
    (l.map f).sum ≤ (l.map g).sum + f j := by
  induction l with
  | nil => exact Nat.zero_le _
  | cons i l ih =>
    obtain ⟨hi, hl⟩ := List.nodup_cons.mp hl
    rw [List.map_cons, List.map_cons, List.sum_cons, List.sum_cons]
    by_cases hij : i = j
    · have hsame : l.map f = l.map g := by
        refine List.map_congr_left ?_
        intro i' hi'
        exact h i' (fun e => hi (by rw [hij, ← e]; exact hi'))
      rw [hsame, hij]
      omega
    · have hsame := h i hij
      have hrest := ih hl
      omega

theorem tokensAt_weighted (messages : List ChatMessage) {i j : ℕ} (hij : i ≠ j) (n : ℕ) :
    tokensAt (weighted messages j n) i = tokensAt (weighted messages j 0) i := by
  rw [tokensAt, tokensAt, getElem?_weighted, getElem?_weighted, if_neg hij, ite_self]

theorem le_tokensAt_weighted {j : ℕ} (hj : j < messages.length) (n : ℕ) :
    n ≤ tokensAt (weighted messages j (4 * n)) j := by
  have hbytes : 4 * n ≤ byteLength (fixedText (4 * n)) := by
    rw [fixedText, byteLength_append, byteLength_replicate (4 * n) (by rfl)]
    exact Nat.le_add_left _ _
  rw [tokensAt, getElem?_weighted, List.getElem?_eq_getElem hj, Option.map_some, Option.map_some,
    Option.getD_some, if_pos rfl, messageTokens, messageText_fixedContent, estimateTokens_eq]
  omega

theorem estimate_weighted (messages : List ChatMessage) (j n : ℕ) :
    estimateMessagesTokens (weighted messages j n) [] ≤
      estimateMessagesTokens (weighted messages j 0) [] + tokensAt (weighted messages j n) j := by
  have hlen : ∀ n, (weighted messages j n).length = messages.length := fun n => List.length_mapIdx
  rw [estimate_eq, estimate_eq, hlen, hlen]
  have hsum := sum_off (List.nodup_range (n := messages.length))
    (fun i hij => tokensAt_weighted messages (j := j) hij n)
  omega

/-! ## A result without its call -/

theorem dropTurns_of_over {dropped : List ℕ} (hover : budget < estimateMessagesTokens messages tools)
    (hdrop : turnsToDrop messages (budget * 4 / 5) tools = dropped) (hsome : dropped ≠ []) :
    (dropTurns messages budget tools).2 = noteDrop (select messages (survivors messages dropped)) := by
  have hno : ¬ dropped.isEmpty = true := fun h => hsome (List.isEmpty_iff.mp h)
  rw [dropTurns, if_neg (by omega), dropOldestTurns_eq, hdrop, if_neg hno]

/-- A result that survives while every call of its id before it is dropped is left without one. -/
theorem not_answered_of_dropped {dropped : List ℕ} {k : ℕ} {t : ChatMessage} {id : String}
    (hk : k ∈ survivors messages dropped) (ht : messages[k]? = some t) (hanswers : answers t id)
    (hcalls : ∀ (i : ℕ) a, i < k → messages[i]? = some a → carries a id → i ∈ dropped) :
    ¬ Answered (noteDrop (select messages (survivors messages dropped))) := by
  intro h
  obtain ⟨added, hadded, hshape⟩ := noteDrop_bare (select messages (survivors messages dropped))
  have hboth := (SameShape.symm hshape).answered h
  have hleft : Answered (select messages (survivors messages dropped)) := by
    rcases hadded with rfl | rfl
    · exact hboth
    · exact hboth.tail (by decide)
  rw [answered_select_iff (survivors_sorted messages dropped) (fun i hi => survivors_inside hi)] at hleft
  obtain ⟨i, a, hi, hlt, ha, hcarries⟩ := hleft k t id hk ht hanswers
  exact (mem_survivors.mp hi).1 (hcalls i a hlt ha hcarries)

/-- The guard leaves a result without its call if steps 1 and 2 change nothing and the drop takes all
calls of its id before it. -/
theorem fit_not_answered {contextSize : ℤ} {opts : FitOptions} {dropped : List ℕ} {k : ℕ}
    {t : ChatMessage} {id : String} (hctx : 0 < contextSize)
    (hover : effectiveBudget contextSize opts < estimateMessagesTokens messages opts.tools)
    (hshort : (shorten messages (effectiveBudget contextSize opts) opts.tools).2.2 = messages)
    (hdrop : turnsToDrop messages (effectiveBudget contextSize opts * 4 / 5) opts.tools = dropped)
    (hsome : dropped ≠ []) (hk : k ∈ survivors messages dropped) (ht : messages[k]? = some t)
    (hanswers : answers t id)
    (hcalls : ∀ (i : ℕ) a, i < k → messages[i]? = some a → carries a id → i ∈ dropped) :
    ¬ Answered (fitMessagesToBudget messages contextSize opts).2 := by
  intro h
  rw [fit_messages hctx, if_neg (by omega), beforeForce, hshort,
    dropTurns_of_over hover hdrop hsome] at h
  have hforced := (forceFit_edits (noteDrop (select messages (survivors messages dropped)))
    (effectiveBudget contextSize opts) opts.tools).sameShape
  exact not_answered_of_dropped hk ht hanswers hcalls (hforced.symm.answered h)

/-! ## Exactly when no drop splits a call from its result -/

theorem exists_last_call {id : String} {k : ℕ}
    (h : ∃ (i : ℕ) (a : ChatMessage), i < k ∧ messages[i]? = some a ∧ carries a id) :
    ∃ (j : ℕ) (a : ChatMessage), j < k ∧ messages[j]? = some a ∧ carries a id ∧
      ∀ (i : ℕ) b, i < k → messages[i]? = some b → carries b id → i ≤ j := by
  induction k with
  | zero =>
    obtain ⟨i, a, hlt, -⟩ := h
    omega
  | succ k ih =>
    by_cases hlast : ∃ a, messages[k]? = some a ∧ carries a id
    · obtain ⟨a, ha, hcarries⟩ := hlast
      exact ⟨k, a, by omega, ha, hcarries, fun i b hi _ _ => by omega⟩
    · have hbelow : ∀ (i : ℕ) b, i < k + 1 → messages[i]? = some b → carries b id → i < k := by
        intro i b hi hb hcarries
        rcases Nat.lt_succ_iff_lt_or_eq.mp hi with hlt | rfl
        · exact hlt
        · exact absurd ⟨b, hb, hcarries⟩ hlast
      obtain ⟨i, a, hi, ha, hcarries⟩ := h
      obtain ⟨j, b, hj, hb, hcarries', hmax⟩ := ih ⟨i, a, hbelow i a hi ha hcarries, ha, hcarries⟩
      exact ⟨j, b, by omega, hb, hcarries', fun i' c hi' hc hc' =>
        hmax i' c (hbelow i' c hi' hc hc') hc hc'⟩

theorem mem_droppable_of_old (hfixed : Fixed messages) {i : ℕ} {a : ChatMessage}
    (ha : messages[i]? = some a) (hrole : a.role = .assistant)
    (hold : protectedTurns * 2 < (messages.drop i).countP (fun m => m.role ≠ .system)) :
    i ∈ droppable messages := by
  have hno : ∀ m ∈ messages, m.isNote = false := fun m hm => isNote_of_noteTimes (hfixed.noteTimes hm)
  have hcount : (messages.drop i).countP (fun m => m.role ≠ .system ∧ m.isNote = false) =
      (messages.drop i).countP (fun m => m.role ≠ .system) := by
    refine List.countP_congr ?_
    intro m hm
    simp [hno m (List.mem_of_mem_drop hm)]
  refine mem_droppable.mpr ⟨mem_take_of_count ?_ (by omega), ?_⟩
  · exact mem_indicesOf.mpr ⟨a, ha, decide_eq_true
      ⟨by rw [hrole]; decide, hno a (List.mem_of_getElem? ha)⟩⟩
  · intro e
    obtain ⟨u, hu, hreal⟩ := mem_indicesOf.mp (latestUser_eq_some_iff.mp e.symm).1
    rw [ha, Option.some_inj] at hu
    rw [hu, (of_decide_eq_true hreal).1] at hrole
    cases hrole

theorem effectiveBudget_plain {n : ℕ} (hn : 0 < n) : effectiveBudget n ⟨0, 1, []⟩ = n := by
  have hmax : max 1 ((n : ℤ) - 0) = n := by omega
  rw [effectiveBudget]
  dsimp only
  rw [hmax, div_one, Int.cast_natCast, Int.floor_natCast]
  omega

/-- A message that may be dropped can be made so large that a drop ends with it. -/
theorem exists_drop_at {j : ℕ} (hj : j < messages.length)
    (hplace : ∀ n, j ∈ droppable (weighted messages j n)) :
    ∃ n budget before after, 0 < budget ∧
      budget < estimateMessagesTokens (weighted messages j n) [] ∧
      droppable (weighted messages j n) = before ++ j :: after ∧
      turnsToDrop (weighted messages j n) (budget * 4 / 5) [] = before ++ [j] := by
  let others := estimateMessagesTokens (weighted messages j 0) []
  let input := weighted messages j (4 * (2 * others + 3))
  have hlarge : 2 * others + 3 ≤ tokensAt input j := le_tokensAt_weighted hj _
  have hrest : estimateMessagesTokens input [] ≤ others + tokensAt input j :=
    estimate_weighted messages j _
  have hleft : tokensAt input j ≤ estimateMessagesTokens input [] := by
    have hmem : tokensAt input j ∈ (List.range input.length).map (tokensAt input) := by
      refine List.mem_map_of_mem (List.mem_range.mpr ?_)
      rw [show input.length = messages.length from List.length_mapIdx]
      exact hj
    have hle := List.le_sum_of_mem hmem
    rw [estimate_eq]
    omega
  obtain ⟨before, after, hsplit⟩ := List.append_of_mem (hplace (4 * (2 * others + 3)))
  have hdrop : turnsToDrop input ((2 * others + 2) * 4 / 5) [] = before ++ [j] :=
    turnsToDrop_eq hsplit hrest (by omega) (by omega)
  have hover : 2 * others + 2 < estimateMessagesTokens input [] := by omega
  exact ⟨4 * (2 * others + 3), 2 * others + 2, before, after, by omega, hover, hsplit, hdrop⟩

/-- Where a drop can come between a call and its result, it does for some contents. -/
theorem unsplit_of_answered (hanswered : Answered messages)
    (h : ∀ j n contextSize opts,
      Answered (fitMessagesToBudget (weighted messages j n) contextSize opts).2) :
    Unsplit messages := by
  intro k t id ht hanswers
  obtain ⟨j, a, hjk, ha, hcarries, hlast⟩ := exists_last_call (hanswered k t id ht hanswers)
  by_contra hsplit
  rw [not_or, not_and_or, not_not] at hsplit
  obtain ⟨hlater, hold⟩ := hsplit
  have hshape := weighted_sameShape messages j
  have holdcall : ∀ (n i : ℕ) b, i < k → (weighted messages j n)[i]? = some b → carries b id →
      i ∈ droppable (weighted messages j n) := by
    intro n i b' hi hb' hcarries'
    obtain ⟨b, hb, hbare⟩ := (hshape n).source hb'
    refine mem_droppable_of_old (weighted_fixed messages j n) hb' hcarries'.1 ?_
    rw [(hshape n).countP]
    by_contra hrecent
    exact hold ⟨i, b, hi, hb, (bare_carries hbare id).mp hcarries', by omega⟩
  have hplace : ∀ n, j ∈ droppable (weighted messages j n) := by
    intro n
    obtain ⟨a', ha', hbare⟩ := (hshape n).symm.source ha
    exact holdcall n j a' hjk ha' ((bare_carries hbare id).mp hcarries)
  obtain ⟨n, budget, before, after, hpos, hover, hends, hdrop⟩ :=
    exists_drop_at (List.getElem?_eq_some_iff.mp ha).1 hplace
  have hsorted := droppable_sorted (weighted messages j n)
  rw [hends] at hsorted
  have hlow : ∀ i ∈ before ++ [j], i ≤ j := by
    intro i hi
    rcases List.mem_append.mp hi with hi | hi
    · exact ((List.pairwise_append.mp hsorted).2.2 i hi j List.mem_cons_self).le
    · exact (List.mem_singleton.mp hi).le
  obtain ⟨t', ht', hbare⟩ := (hshape n).symm.source ht
  have hanswers' := (bare_answers hbare id).mp hanswers
  have hkeep : k ∈ survivors (weighted messages j n) (before ++ [j]) := by
    refine mem_survivors.mpr ⟨fun hk => absurd (hlow k hk) (by omega), t', ht', ?_⟩
    intro _ id' hid'
    obtain ⟨hid', hne⟩ := Option.filter_eq_some_iff.mp hid'
    rw [hanswers'.2, Option.some_inj] at hid'
    rw [← hid'] at hne ⊢
    -- The id is carried once more after the result, by a call that stays.
    have hagain := hlater.resolve_left (by simpa using hne)
    push Not at hagain
    obtain ⟨i, c, hki, hc, hcarries'⟩ := hagain
    obtain ⟨c', hc', hbarec⟩ := (hshape n).symm.source hc
    exact ⟨i, c', fun hi => absurd (hlow i hi) (by omega), hc', (bare_carries hbarec id).mp hcarries'⟩
  have hcalls : ∀ (i : ℕ) b, i < k → (weighted messages j n)[i]? = some b → carries b id →
      i ∈ before ++ [j] := by
    intro i b' hi hb' hcarries'
    obtain ⟨b, hb, hbareb⟩ := (hshape n).source hb'
    have hj : j ∈ before ++ [j] := List.mem_append_right before List.mem_cons_self
    rcases Nat.lt_or_eq_of_le (hlast i b hi hb ((bare_carries hbareb id).mp hcarries')) with hlt | rfl
    · refine mem_of_lt_mem ?_ (droppable_sorted _) (holdcall n i b' hi hb' hcarries') hj hlt
      rw [hends]
      exact ⟨after, by simp⟩
    · exact hj
  have hbudget : effectiveBudget budget ⟨0, 1, []⟩ = budget := effectiveBudget_plain hpos
  have hno : ¬ Answered (fitMessagesToBudget (weighted messages j n) budget ⟨0, 1, []⟩).2 := by
    refine fit_not_answered (by omega) ?_ (shorten_fixed (weighted_fixed messages j n)) ?_ (by simp)
      hkeep ht' hanswers' hcalls
    · rw [hbudget]
      exact hover
    · rw [hbudget]
      exact hdrop
  exact hno (h j n budget ⟨0, 1, []⟩)

theorem SameShape.cleanCalls {messages' : List ChatMessage} (h : SameShape messages messages')
    (hclean : CleanCalls messages) : CleanCalls messages' := by
  intro m' hm' call hcall
  obtain ⟨i, hi⟩ := List.mem_iff_getElem?.mp hm'
  obtain ⟨m, hm, hbare⟩ := h.source hi
  refine hclean m (List.mem_of_getElem? hm) call ?_
  rw [ChatMessage.calls, ← (ChatMessage.mk.inj hbare).2.2.1]
  exact hcall

def readNotes : ToolCall := ⟨"call_1", "fs_read_text", "\x7b\x7d"⟩

theorem carries_readNotes {m : ChatMessage} {id : String} (hcalls : m.toolCalls = some [readNotes]) :
    carries m id ↔ m.role = .assistant ∧ "call_1" = id := by
  rw [carries, ChatMessage.calls, hcalls]
  simp [readNotes]

/-- A question, a call and its result. -/
def question : List ChatMessage :=
  [⟨.user, .text "What is in my notes?", none, none⟩, ⟨.assistant, .text "", some [readNotes], none⟩,
    ⟨.tool, .text "milk", none, some "call_1"⟩]

/-- The only result, and a call of its id before it. -/
theorem question_result {k : ℕ} {t : ChatMessage} {id : String} (ht : question[k]? = some t)
    (hanswers : answers t id) : k = 2 ∧ ∃ a, question[1]? = some a ∧ carries a id := by
  have hk : k ∈ indicesOf (fun m => m.role = .tool) question :=
    mem_indicesOf.mpr ⟨t, ht, decide_eq_true hanswers.1⟩
  rw [show indicesOf (fun m => m.role = .tool) question = [2] from rfl, List.mem_singleton] at hk
  subst hk
  cases ht
  exact ⟨rfl, _, rfl, (carries_readNotes rfl).mpr ⟨rfl, Option.some.inj hanswers.2⟩⟩

theorem question_answered : Answered question := by
  intro k t id ht hanswers
  obtain ⟨rfl, a, ha, hcarries⟩ := question_result ht hanswers
  exact ⟨1, a, by omega, ha, hcarries⟩

theorem question_unsplit : Unsplit question := by
  intro k t id ht hanswers
  obtain ⟨rfl, a, ha, hcarries⟩ := question_result ht hanswers
  exact Or.inr ⟨1, a, by omega, ha, hcarries, by decide⟩

theorem question_noteOnce : NoteOnce question := by
  have hzero : ∀ m ∈ question, noteTimes m = 0 := by decide +kernel
  refine ⟨by unfold CleanCalls; decide +kernel, ?_, ?_⟩
  · intro m hm
    exact Or.inl (hzero m (List.mem_of_getElem? hm))
  · intro i m hm
    exact hzero m (List.mem_of_getElem? hm)

/-- Two calls of one id, with their results and some talk. The first call is old enough for a drop to
end with it, and the second too recent to be dropped. -/
def repeatedId : List ChatMessage :=
  [plain .system 700 's', plain .user 100 'u',
    { plain .assistant 3400 'a' with toolCalls := some [readNotes] },
    { plain .tool 100 't' with toolCallId := some "call_1" },
    plain .assistant 3136 'a', plain .user 100 'u',
    { plain .assistant 100 'a' with toolCalls := some [readNotes] },
    { plain .tool 100 't' with toolCallId := some "call_1" },
    plain .assistant 3136 'a', plain .user 100 'u', plain .assistant 3136 'a', plain .user 100 'u']

theorem messageTokens_readNotes (role : Role) (n : ℕ) {c : Char} (hc : c.utf8Size = 1) :
    messageTokens { plain role n c with toolCalls := some [readNotes] } = (2 * n + 6) / 7 + 29 := by
  have hcalls : estimateTokens (Json.stringify (.array ([readNotes].map ToolCall.toJson))) = 25 := by
    decide +kernel
  have hplain := messageTokens_plain role n hc
  rw [messageTokens] at hplain ⊢
  dsimp only at hplain ⊢
  rw [hcalls]
  simp only [plain] at hplain ⊢
  omega

theorem messageTokens_result (n : ℕ) {c : Char} (hc : c.utf8Size = 1) (id : String) :
    messageTokens { plain .tool n c with toolCallId := some id } = (2 * n + 6) / 7 + 4 :=
  messageTokens_plain .tool n hc

theorem repeatedId_tokens : repeatedId.map messageTokens =
    [204, 33, 1001, 33, 900, 33, 58, 33, 900, 33, 900, 33] := by
  simp [repeatedId, messageTokens_plain, messageTokens_readNotes, messageTokens_result,
    show 's'.utf8Size = 1 from rfl, show 'u'.utf8Size = 1 from rfl, show 'a'.utf8Size = 1 from rfl,
    show 't'.utf8Size = 1 from rfl]

theorem repeatedId_tokensAt (i : ℕ) : tokensAt repeatedId i =
    ([204, 33, 1001, 33, 900, 33, 58, 33, 900, 33, 900, 33] : List ℕ)[i]?.getD 0 := by
  rw [tokensAt, ← List.getElem?_map, repeatedId_tokens]

theorem repeatedId_estimate : estimateMessagesTokens repeatedId [] = 4161 := by
  rw [estimateMessagesTokens, repeatedId_tokens]
  rfl

theorem repeatedId_shorten : (shorten repeatedId 4096 []).2.2 = repeatedId := by
  refine shorten_idle (by rfl) ?_
  intro i m hm
  have hmem : messageTokens m ∈ repeatedId.map messageTokens :=
    List.mem_map_of_mem (List.mem_of_getElem? hm)
  have hsmall : messageTokens m ≤ 1001 := by
    rw [repeatedId_tokens] at hmem
    revert hmem
    generalize messageTokens m = t
    intro hmem
    simp only [List.mem_cons, List.not_mem_nil, or_false] at hmem
    omega
  have hcap : oversizedTokenCap 4096 = 1024 := by decide
  unfold oversized?
  split
  · exact if_neg (fun h => absurd h.2.1 (by omega))
  · rfl

theorem plain_isNote (role : Role) (n : ℕ) {c : Char} (hc : c ≠ '[') : (plain role n c).isNote = false := by
  refine isNote_text (plain role n c) ?_
  intro e
  have hmem : '[' ∈ (String.ofList (List.replicate n c)).toList := by
    rw [e, toList_note]
    decide
  rw [String.toList_ofList] at hmem
  exact hc (List.eq_of_mem_replicate hmem).symm

theorem repeatedId_isNote : ∀ m ∈ repeatedId, m.isNote = false := by
  have htalk := plain_isNote .assistant 3136 (show 'a' ≠ '[' by decide)
  have huser := plain_isNote .user 100 (show 'u' ≠ '[' by decide)
  have hresult := plain_isNote .tool 100 (show 't' ≠ '[' by decide)
  simp only [repeatedId, List.forall_mem_cons]
  exact ⟨plain_isNote .system 700 (by decide), huser, plain_isNote .assistant 3400 (by decide), hresult,
    htalk, huser, plain_isNote .assistant 100 (by decide), hresult, htalk, huser, htalk, huser,
    fun _ h => absurd h List.not_mem_nil⟩

theorem indicesOf_congr {p q : ChatMessage → Bool} (h : ∀ m ∈ messages, p m = q m) :
    indicesOf p messages = indicesOf q messages := by
  refine List.filter_congr ?_
  intro i _
  cases hm : messages[i]? with
  | none => rfl
  | some m => exact h m (List.mem_of_getElem? hm)

theorem repeatedId_droppable : droppable repeatedId = [1, 2, 3] := by
  have hidx : nonSystemIdx repeatedId = indicesOf (fun m => m.role ≠ .system) repeatedId :=
    indicesOf_congr (fun m hm => by simp [repeatedId_isNote m hm])
  have huser : latestUser repeatedId =
      (indicesOf (fun m => m.role = .user) repeatedId).getLast? := by
    have hreal : indicesOf realUser repeatedId = indicesOf (fun m => m.role = .user) repeatedId :=
      indicesOf_congr (fun m hm => by simp [realUser, repeatedId_isNote m hm])
    rw [latestUser_eq, hreal]
  rw [droppable, hidx, huser]
  rfl

theorem repeatedId_dropped : turnsToDrop repeatedId (4096 * 4 / 5) [] = [1, 2] := by
  rw [turnsToDrop, repeatedId_droppable, repeatedId_estimate]
  have hmore : 3276 + (([1] : List ℕ).map (tokensAt repeatedId)).sum < 4161 := by
    simp [repeatedId_tokensAt]
  refine dropLoop_through hmore ?_
  simp [repeatedId_tokensAt]

end Haruspex.ContextBudget
