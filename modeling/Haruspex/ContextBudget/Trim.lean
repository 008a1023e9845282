import Haruspex.ContextBudget.Conversation

/-! When stubbing old tool results only frees context. -/
namespace Haruspex.ContextBudget
open JavaScript
set_option autoImplicit false

variable {messages messages' : List ChatMessage} {budget : ℕ} {tools : List ToolDefinition}

/-! ## The loop -/

/-- The order results are stubbed in. -/
def trimOrder (messages : List ChatMessage) : List TrimCandidate :=
  (trimCandidates messages).insertionSort (fun a b => b.tokens ≤ a.tokens)

/-- All of some results stubbed, one after another. -/
def stubAll (messages : List ChatMessage) (candidates : List TrimCandidate) : List ChatMessage :=
  candidates.foldl (fun ms c => setContent ms c.idx (stubFor ms c.idx c.text)) messages

def freed (messages : List ChatMessage) (c : TrimCandidate) : ℤ :=
  (c.tokens : ℤ) - (estimateTokens (stubFor messages c.idx c.text) + perMessageOverheadTokens)

/-- The running estimate and the messages after each stub. -/
def stubTrace (budget : ℕ) : List TrimCandidate → ℤ → List ChatMessage → List (ℤ × List ChatMessage)
  | [], _, _ => []
  | c :: candidates, running, messages =>
    if running ≤ budget then []
    else
      let after := (running - freed messages c, setContent messages c.idx (stubFor messages c.idx c.text))
      after :: stubTrace budget candidates after.1 after.2

def trimTrace (messages : List ChatMessage) (budget : ℕ) (tools : List ToolDefinition) :
    List (ℤ × List ChatMessage) :=
  stubTrace budget (trimOrder messages) (estimateMessagesTokens messages tools) messages

theorem stubLoop_eq (candidates : List TrimCandidate) (running : ℤ) (trimmed : Bool)
    (messages : List ChatMessage) :
    (stubLoop budget candidates running trimmed messages).2 =
      ((stubTrace budget candidates running messages).getLast?.map Prod.snd).getD messages := by
  induction candidates generalizing running trimmed messages with
  | nil => rfl
  | cons c candidates ih =>
    unfold stubLoop stubTrace
    split
    · rfl
    · dsimp only [freed]
      rw [ih, List.getLast?_cons]
      cases (stubTrace budget candidates _ _).getLast? with
      | none => rfl
      | some step => rfl

/-- The trace is that of the function. -/
theorem trimOldToolMessages_eq (messages : List ChatMessage) (budget : ℕ) (tools : List ToolDefinition) :
    (trimOldToolMessages messages (some budget) tools).2 =
      ((trimTrace messages budget tools).getLast?.map Prod.snd).getD messages := by
  unfold trimOldToolMessages trimTrace
  dsimp only
  split
  · rename_i hempty
    rw [trimOrder, List.isEmpty_iff.mp hempty]
    rfl
  · split
    · rename_i hfits
      cases trimOrder messages with
      | nil => rfl
      | cons c candidates =>
        rw [stubTrace, if_pos (by exact_mod_cast hfits)]
        rfl
    · exact stubLoop_eq _ _ _ _

/-! ## Stubs do not depend on one another -/

theorem setContent_bare (messages : List ChatMessage) (idx : ℕ) (text : String) :
    SameShape messages (setContent messages idx text) := by
  refine List.ext_getElem? fun i => ?_
  rw [List.getElem?_map, List.getElem?_map, setContent, List.getElem?_modify]
  cases messages[i]? with
  | none => rfl
  | some m =>
    by_cases hi : idx = i
    · simp [hi, ChatMessage.bare]
    · simp [hi]

theorem describeToolCall_congr (h : SameShape messages messages') (idx : ℕ) :
    describeToolCall messages' idx = describeToolCall messages idx := by
  have hshape (l : List ChatMessage) : describeToolCall l idx =
      describeToolCall (l.map ChatMessage.bare) idx := by
    unfold describeToolCall
    rw [List.getElem?_map, ← List.map_take, ← List.map_reverse]
    have hid : (l[idx]?.map ChatMessage.bare).bind ChatMessage.callId? =
        l[idx]?.bind ChatMessage.callId? := by
      cases l[idx]? with
      | none => rfl
      | some m => rfl
    rw [hid]
    simp only [List.findSome?_map]
    rfl
  rw [hshape messages', hshape messages, h]

theorem freed_congr (h : SameShape messages messages') (c : TrimCandidate) :
    freed messages' c = freed messages c := by
  rw [freed, freed, stubFor, stubFor, describeToolCall_congr h]

/-! ## What a stub costs -/

/-- What the calls of a message cost, which a stub does not change. -/
def callTokens (m : ChatMessage) : ℕ :=
  match m.toolCalls with
  | some calls => estimateTokens (Json.stringify (.array (calls.map ToolCall.toJson)))
  | none => 0

theorem estimateTokens_pos {text : String} (h : text ≠ "") : 0 < estimateTokens text := by
  have hpos : 0 < byteLength text := by
    have hle := length_le_utf8Bytes text.toList
    have hlength : 0 < text.toList.length := by
      rw [List.length_pos_iff]
      simpa using h
    rw [byteLength]
    omega
  rw [estimateTokens, if_neg h]
  omega

theorem callTokens_eq_zero_iff (m : ChatMessage) : callTokens m = 0 ↔ m.toolCalls = none := by
  unfold callTokens
  cases m.toolCalls with
  | none => simp
  | some calls =>
    have hpos := @estimateTokens_pos (Json.stringify (.array (calls.map ToolCall.toJson))) (by
      rw [Json.stringify]
      simp)
    simp only [reduceCtorEq, iff_false]
    omega

/-- A candidate is a message of the list, with its text and cost. -/
def Holds (messages : List ChatMessage) (c : TrimCandidate) : Prop :=
  ∃ m, messages[c.idx]? = some m ∧ c.tokens = messageTokens m

/-- What the calls of a candidate's message cost. -/
def excess (messages : List ChatMessage) (c : TrimCandidate) : ℕ :=
  (messages[c.idx]?.map callTokens).getD 0

theorem sum_modify {m : ChatMessage} {idx : ℕ} (g : ChatMessage → ℕ) (f : ChatMessage → ChatMessage)
    (h : messages[idx]? = some m) :
    ((messages.modify idx f).map g).sum + g m = (messages.map g).sum + g (f m) := by
  induction messages generalizing idx with
  | nil => cases h
  | cons first messages ih =>
    cases idx with
    | zero =>
      cases h
      simp only [List.modify_zero_cons, List.map_cons, List.sum_cons]
      omega
    | succ idx =>
      have hrest := ih h
      simp only [List.modify_succ_cons, List.map_cons, List.sum_cons]
      omega

theorem estimate_stub {c : TrimCandidate} (h : Holds messages c) :
    (estimateMessagesTokens (setContent messages c.idx (stubFor messages c.idx c.text)) tools : ℤ) =
      estimateMessagesTokens messages tools - freed messages c + excess messages c := by
  obtain ⟨m, hm, htokens⟩ := h
  have hsum := sum_modify messageTokens (fun m => { m with content := .text (stubFor messages c.idx c.text) }) hm
  have hstub : messageTokens { m with content := .text (stubFor messages c.idx c.text) } =
    estimateTokens (stubFor messages c.idx c.text) + perMessageOverheadTokens + callTokens m := rfl
  have hexcess : excess messages c = callTokens m := by
    rw [excess, hm]
    rfl
  rw [hstub, ← htokens] at hsum
  rw [freed, hexcess, setContent, estimateMessagesTokens, estimateMessagesTokens]
  omega

/-! ## Several stubs -/

/-- Candidates of different messages. -/
def Separate (messages : List ChatMessage) (candidates : List TrimCandidate) : Prop :=
  (∀ c ∈ candidates, Holds messages c) ∧ (candidates.map TrimCandidate.idx).Nodup

theorem Separate.tail {c : TrimCandidate} {candidates : List TrimCandidate}
    (h : Separate messages (c :: candidates)) (text : String) :
    Separate (setContent messages c.idx text) candidates := by
  obtain ⟨hholds, hnodup⟩ := h
  rw [List.map_cons, List.nodup_cons] at hnodup
  refine ⟨fun other hother => ?_, hnodup.2⟩
  obtain ⟨m, hm, htokens⟩ := hholds other (List.mem_cons_of_mem c hother)
  refine ⟨m, ?_, htokens⟩
  have hne : c.idx ≠ other.idx := fun heq => hnodup.1 (heq ▸ List.mem_map_of_mem hother)
  rw [setContent, List.getElem?_modify, hm]
  simp [hne]

theorem excess_setContent {c : TrimCandidate} (idx : ℕ) (text : String) :
    excess (setContent messages idx text) c = excess messages c := by
  rw [excess, excess, setContent, List.getElem?_modify]
  cases messages[c.idx]? with
  | none => rfl
  | some m =>
    by_cases hi : idx = c.idx
    · simp [hi, callTokens]
    · simp [hi]

/-- The estimate falls by what the stubs free, but for the calls, which were counted as freed. -/
theorem estimate_stubAll {candidates : List TrimCandidate} (h : Separate messages candidates) :
    (estimateMessagesTokens (stubAll messages candidates) tools : ℤ) =
      estimateMessagesTokens messages tools - (candidates.map (freed messages)).sum +
        ((candidates.map (excess messages)).sum : ℕ) := by
  induction candidates generalizing messages with
  | nil => simp [stubAll]
  | cons c candidates ih =>
    have hshape := setContent_bare messages c.idx (stubFor messages c.idx c.text)
    have hrest := ih (h.tail (stubFor messages c.idx c.text))
    have hfreed : candidates.map (freed (setContent messages c.idx (stubFor messages c.idx c.text))) =
        candidates.map (freed messages) := List.map_congr_left fun other _ => freed_congr hshape other
    have hexcess : candidates.map (excess (setContent messages c.idx (stubFor messages c.idx c.text))) =
        candidates.map (excess messages) := List.map_congr_left fun other _ => excess_setContent _ _
    rw [hfreed, hexcess, estimate_stub (h.1 c List.mem_cons_self)] at hrest
    rw [stubAll, List.foldl_cons, ← stubAll, hrest, List.map_cons, List.map_cons, List.sum_cons,
      List.sum_cons]
    push_cast
    omega

/-! ## The candidates -/

theorem trimCandidates_separate (messages : List ChatMessage) :
    Separate messages (trimCandidates messages) := by
  unfold trimCandidates
  dsimp only
  split
  · refine ⟨?_, List.nodup_nil⟩
    intro c hc
    cases hc
  · have hread (idx : ℕ) (c : TrimCandidate) (hc : (messages[idx]?.bind (fun m =>
        let text := messageText m.content
        if startsWith text "[Trimmed:" then none
        else if holdsSkillContent text then none
        else some (⟨idx, text, messageTokens m⟩ : TrimCandidate))) = some c) :
        c.idx = idx ∧ Holds messages c := by
      obtain ⟨m, hm, hc⟩ := Option.bind_eq_some_iff.mp hc
      dsimp only at hc
      split at hc
      · cases hc
      · split at hc
        · cases hc
        · cases hc
          exact ⟨rfl, m, hm, rfl⟩
    constructor
    · intro c hc
      obtain ⟨idx, -, hc⟩ := List.mem_filterMap.mp hc
      exact (hread idx c hc).2
    · have hnodup := (indicesOf_sorted (fun m => m.role = .tool) messages).nodup
      have htake := (List.take_sublist ((indicesOf (fun m => m.role = .tool) messages).length -
        preserveRecentToolMessages) (indicesOf (fun m => m.role = .tool) messages)).nodup hnodup
      generalize (indicesOf (fun m => m.role = .tool) messages).take _ = places at htake
      induction places with
      | nil => exact List.nodup_nil
      | cons idx places ih =>
        rw [List.nodup_cons] at htake
        rw [List.filterMap_cons]
        split
        · exact ih htake.2
        · rename_i c hc
          rw [List.map_cons, List.nodup_cons]
          refine ⟨fun hmem => htake.1 ?_, ih htake.2⟩
          obtain ⟨other, hother, heq⟩ := List.mem_map.mp hmem
          obtain ⟨idx', hidx', hother⟩ := List.mem_filterMap.mp hother
          rw [← (hread idx c hc).1, ← heq, (hread idx' other hother).1]
          exact hidx'

theorem trimOrder_perm (messages : List ChatMessage) :
    (trimOrder messages).Perm (trimCandidates messages) := List.perm_insertionSort _ _

theorem trimOrder_separate (messages : List ChatMessage) : Separate messages (trimOrder messages) := by
  obtain ⟨hholds, hnodup⟩ := trimCandidates_separate messages
  have hperm := trimOrder_perm messages
  exact ⟨fun c hc => hholds c (hperm.mem_iff.mp hc), (hperm.map _).nodup_iff.mpr hnodup⟩

theorem Separate.take {candidates : List TrimCandidate} (h : Separate messages candidates) (k : ℕ) :
    Separate messages (candidates.take k) := by
  refine ⟨fun c hc => h.1 c (List.mem_of_mem_take hc), ?_⟩
  rw [List.map_take]
  exact (List.take_sublist k _).nodup h.2

/-! ## The trace -/

/-- The running estimate after so many stubs. -/
def runningAfter (messages : List ChatMessage) (candidates : List TrimCandidate) (running : ℤ) (k : ℕ) : ℤ :=
  running - ((candidates.take k).map (freed messages)).sum

theorem runningAfter_cons {c : TrimCandidate} {candidates : List TrimCandidate} {running : ℤ}
    (text : String) (k : ℕ) :
    runningAfter (setContent messages c.idx text) candidates (running - freed messages c) k =
      runningAfter messages (c :: candidates) running (k + 1) := by
  have hfreed : (candidates.take k).map (freed (setContent messages c.idx text)) =
      (candidates.take k).map (freed messages) :=
    List.map_congr_left fun other _ => freed_congr (setContent_bare messages c.idx text) other
  rw [runningAfter, runningAfter, hfreed, List.take_succ_cons, List.map_cons, List.sum_cons]
  omega

theorem getElem?_stubTrace (candidates : List TrimCandidate) (running : ℤ) (messages : List ChatMessage)
    (k : ℕ) : (stubTrace budget candidates running messages)[k]? =
      if k < candidates.length ∧ ∀ i ≤ k, (budget : ℤ) < runningAfter messages candidates running i then
        some (runningAfter messages candidates running (k + 1), stubAll messages (candidates.take (k + 1)))
      else none := by
  induction candidates generalizing running messages k with
  | nil => simp [stubTrace]
  | cons c candidates ih =>
    have hzero : runningAfter messages (c :: candidates) running 0 = running := by simp [runningAfter]
    unfold stubTrace
    split
    · rename_i hfits
      rw [List.getElem?_nil, if_neg]
      rintro ⟨-, hall⟩
      have hover := hall 0 (Nat.zero_le k)
      omega
    · rename_i hover
      dsimp only
      cases k with
      | zero =>
        rw [List.getElem?_cons_zero, if_pos]
        · simp [runningAfter, stubAll]
        · refine ⟨Nat.zero_lt_succ _, fun i hi => ?_⟩
          rw [Nat.le_zero.mp hi, hzero]
          omega
      | succ k =>
        rw [List.getElem?_cons_succ, ih]
        simp only [runningAfter_cons, List.length_cons, Nat.add_lt_add_iff_right]
        refine if_congr (and_congr_right fun _ => ?_) rfl rfl
        constructor
        · intro hall i hi
          cases i with
          | zero =>
            rw [hzero]
            omega
          | succ i => exact hall i (by omega)
        · exact fun hall i hi => hall (i + 1) (by omega)

/-! ## Freeing only -/

/-- Nothing grows, the running estimate is the estimate, and the first stub after which the messages fit
is the last. -/
structure FreesOnly (messages : List ChatMessage) (budget : ℕ) (tools : List ToolDefinition) : Prop where
  frees : estimateMessagesTokens (trimOldToolMessages messages (some budget) tools).2 tools ≤
    estimateMessagesTokens messages tools
  running : ∀ step ∈ trimTrace messages budget tools, step.1 = estimateMessagesTokens step.2 tools
  fitting : estimateMessagesTokens messages tools ≤ budget → trimTrace messages budget tools = []
  first : ∀ (k : ℕ) (step : ℤ × List ChatMessage), (trimTrace messages budget tools)[k]? = some step →
    estimateMessagesTokens step.2 tools ≤ budget → (trimTrace messages budget tools).length = k + 1
  last : (trimTrace messages budget tools).length < (trimOrder messages).length →
    estimateMessagesTokens (trimOldToolMessages messages (some budget) tools).2 tools ≤ budget

/-- The estimate once the first results in order are stubbed. -/
def estimateAfter (messages : List ChatMessage) (tools : List ToolDefinition) (k : ℕ) : ℕ :=
  estimateMessagesTokens (stubAll messages ((trimOrder messages).take k)) tools

/-- The results that are stubbed carry no calls, and the messages come to fit, or stubs free at least as
much as they cost. -/
structure StubsPay (messages : List ChatMessage) (budget : ℕ) (tools : List ToolDefinition) : Prop where
  plain : ∀ (k : ℕ) (c : TrimCandidate) (m : ChatMessage), (trimOrder messages)[k]? = some c →
    (∀ i ≤ k, budget < estimateAfter messages tools i) → messages[c.idx]? = some m → m.toolCalls = none
  enough : (∃ k ≤ (trimOrder messages).length, estimateAfter messages tools k ≤ budget) ∨
    stubbingCanFit messages 0 = true

def excessAfter (messages : List ChatMessage) (k : ℕ) : ℕ :=
  (((trimOrder messages).take k).map (excess messages)).sum

def trimRunning (messages : List ChatMessage) (tools : List ToolDefinition) (k : ℕ) : ℤ :=
  runningAfter messages (trimOrder messages) (estimateMessagesTokens messages tools) k

theorem estimateAfter_eq (messages : List ChatMessage) (tools : List ToolDefinition) (k : ℕ) :
    (estimateAfter messages tools k : ℤ) = trimRunning messages tools k + excessAfter messages k := by
  rw [estimateAfter, estimate_stubAll ((trimOrder_separate messages).take k)]
  rfl

theorem excessAfter_zero (messages : List ChatMessage) : excessAfter messages 0 = 0 := rfl

theorem excessAfter_succ {k : ℕ} {c : TrimCandidate} (h : (trimOrder messages)[k]? = some c) :
    excessAfter messages (k + 1) = excessAfter messages k + excess messages c := by
  rw [excessAfter, excessAfter, List.take_add_one, h]
  simp

theorem estimateAfter_zero (messages : List ChatMessage) (tools : List ToolDefinition) :
    estimateAfter messages tools 0 = estimateMessagesTokens messages tools := rfl

/-- A stub is made while the running estimate is over the budget. -/
theorem getElem?_trimTrace (messages : List ChatMessage) (budget : ℕ) (tools : List ToolDefinition)
    (k : ℕ) : (trimTrace messages budget tools)[k]? =
      if k < (trimOrder messages).length ∧ ∀ i ≤ k, (budget : ℤ) < trimRunning messages tools i then
        some (trimRunning messages tools (k + 1), stubAll messages ((trimOrder messages).take (k + 1)))
      else none := getElem?_stubTrace _ _ _ _

theorem trimmed_eq (messages : List ChatMessage) (budget : ℕ) (tools : List ToolDefinition) :
    (trimOldToolMessages messages (some budget) tools).2 =
      stubAll messages ((trimOrder messages).take (trimTrace messages budget tools).length) := by
  rw [trimOldToolMessages_eq]
  cases htrace : trimTrace messages budget tools with
  | nil => rfl
  | cons step steps =>
    have hlast := getElem?_trimTrace messages budget tools steps.length
    rw [htrace] at hlast
    split at hlast
    · rw [List.getLast?_eq_getElem?, List.length_cons, Nat.add_sub_cancel, hlast]
      rfl
    · rw [List.getElem?_eq_none_iff, List.length_cons] at hlast
      omega

theorem freed_nonneg_iff (messages : List ChatMessage) (tools : List ToolDefinition) :
    stubbingCanFit messages 0 = true ↔
      trimRunning messages tools (trimOrder messages).length ≤ estimateMessagesTokens messages tools := by
  have hsum : ((trimCandidates messages).map (freed messages)).sum =
      ((trimOrder messages).map (freed messages)).sum :=
    (((trimOrder_perm messages).map (freed messages)).sum_eq).symm
  have hfit : stubbingCanFit messages 0 = true ↔ 0 ≤ ((trimCandidates messages).map (freed messages)).sum :=
    decide_eq_true_iff
  rw [hfit, hsum, trimRunning, runningAfter, List.take_length]
  omega

/-! ## When it does -/

theorem excessAfter_mono (messages : List ChatMessage) {i k : ℕ} (h : i ≤ k) :
    excessAfter messages i ≤ excessAfter messages k := by
  induction k with
  | zero => rw [Nat.le_zero.mp h]
  | succ k ih =>
    obtain rfl | hlt := Nat.eq_or_lt_of_le h
    · exact Nat.le_refl _
    · refine Nat.le_trans (ih (by omega)) ?_
      cases hc : (trimOrder messages)[k]? with
      | none =>
        rw [excessAfter, excessAfter, List.take_add_one, hc]
        simp
      | some c =>
        rw [excessAfter_succ hc]
        exact Nat.le_add_right _ _

/-- How often the loop stubs. -/
theorem length_trimTrace_le (messages : List ChatMessage) (budget : ℕ) (tools : List ToolDefinition) :
    (trimTrace messages budget tools).length ≤ (trimOrder messages).length := by
  by_contra hlong
  have hnone := getElem?_trimTrace messages budget tools (trimOrder messages).length
  rw [if_neg (by omega), List.getElem?_eq_none_iff] at hnone
  exact hlong hnone

theorem lt_length_trimTrace_iff (messages : List ChatMessage) (budget : ℕ) (tools : List ToolDefinition)
    (k : ℕ) : k < (trimTrace messages budget tools).length ↔
      k < (trimOrder messages).length ∧ ∀ i ≤ k, (budget : ℤ) < trimRunning messages tools i := by
  have hread := getElem?_trimTrace messages budget tools k
  constructor
  · intro hk
    by_contra hnot
    rw [if_neg hnot, List.getElem?_eq_none_iff] at hread
    omega
  · intro hcond
    rw [if_pos hcond] at hread
    exact (List.getElem?_eq_some_iff.mp hread).1

section Plain

variable (hplain : ∀ (k : ℕ) (c : TrimCandidate) (m : ChatMessage), (trimOrder messages)[k]? = some c →
  (∀ i ≤ k, budget < estimateAfter messages tools i) → messages[c.idx]? = some m → m.toolCalls = none)
include hplain

/-- While the messages do not fit, the stubbed results carry no calls. -/
theorem excessAfter_reached {k : ℕ} (h : ∀ i < k, budget < estimateAfter messages tools i) :
    excessAfter messages k = 0 := by
  induction k with
  | zero => rfl
  | succ k ih =>
    have hk := ih fun i hi => h i (by omega)
    cases hc : (trimOrder messages)[k]? with
    | none =>
      rw [excessAfter, List.take_add_one, hc]
      simpa [excessAfter] using hk
    | some c =>
      have hmem := List.mem_of_getElem? hc
      obtain ⟨m, hm, -⟩ := (trimOrder_separate messages).1 c hmem
      have hnone := hplain k c m hc (fun i hi => h i (by omega)) hm
      rw [excessAfter_succ hc, hk, excess, hm]
      simpa using (callTokens_eq_zero_iff m).mpr hnone

/-- The running estimate is over the budget for as long as the estimate is. -/
theorem over_iff (k : ℕ) : (∀ i ≤ k, (budget : ℤ) < trimRunning messages tools i) ↔
    ∀ i ≤ k, budget < estimateAfter messages tools i := by
  constructor
  · intro h i hi
    have heq := estimateAfter_eq messages tools i
    have hi := h i hi
    omega
  · intro h i hi
    have hzero := excessAfter_reached hplain (k := i) (fun j hj => h j (by omega))
    have heq := estimateAfter_eq messages tools i
    have hi := h i hi
    omega

theorem trimRunning_reached {k : ℕ} (h : k ≤ (trimTrace messages budget tools).length) :
    trimRunning messages tools k = estimateAfter messages tools k := by
  have hzero : excessAfter messages k = 0 := by
    refine excessAfter_reached hplain fun i hi => ?_
    have hlt := (lt_length_trimTrace_iff messages budget tools i).mp (by omega)
    exact (over_iff hplain i).mp hlt.2 i (Nat.le_refl i)
  have heq := estimateAfter_eq messages tools k
  omega

end Plain

theorem StubsPay.frees (h : StubsPay messages budget tools) : FreesOnly messages budget tools := by
  have hplain := h.plain
  have hstop {k : ℕ} (hk : estimateAfter messages tools k ≤ budget) :
      (trimTrace messages budget tools).length ≤ k := by
    by_contra hlong
    have hlt := (lt_length_trimTrace_iff messages budget tools k).mp (by omega)
    have hover := (over_iff hplain k).mp hlt.2 k (Nat.le_refl k)
    omega
  have hfits (hk : (trimTrace messages budget tools).length < (trimOrder messages).length) :
      estimateAfter messages tools (trimTrace messages budget tools).length ≤ budget := by
    by_contra hover
    have hnot := mt (lt_length_trimTrace_iff messages budget tools _).mpr (Nat.lt_irrefl _)
    refine hnot ⟨hk, (over_iff hplain _).mpr fun i hi => ?_⟩
    obtain rfl | hlt := Nat.eq_or_lt_of_le hi
    · omega
    · have hreach := (lt_length_trimTrace_iff messages budget tools i).mp hlt
      exact (over_iff hplain i).mp hreach.2 i (Nat.le_refl i)
  have hstep (k : ℕ) (step : ℤ × List ChatMessage)
      (hk : (trimTrace messages budget tools)[k]? = some step) :
      step.1 = trimRunning messages tools (k + 1) ∧
        step.2 = stubAll messages ((trimOrder messages).take (k + 1)) ∧
        k < (trimTrace messages budget tools).length := by
    have hlt := (List.getElem?_eq_some_iff.mp hk).1
    rw [getElem?_trimTrace, if_pos ((lt_length_trimTrace_iff messages budget tools k).mp hlt)] at hk
    cases hk
    exact ⟨rfl, rfl, hlt⟩
  constructor
  · rw [trimmed_eq]
    change estimateAfter messages tools _ ≤ estimateMessagesTokens messages tools
    by_cases hshort : (trimTrace messages budget tools).length < (trimOrder messages).length
    · have hfit := hfits hshort
      by_cases hzero : (trimTrace messages budget tools).length = 0
      · rw [hzero]
        exact Nat.le_of_eq (estimateAfter_zero messages tools)
      · have hover := (lt_length_trimTrace_iff messages budget tools 0).mp (by omega)
        have hfirst := (over_iff hplain 0).mp hover.2 0 (Nat.le_refl 0)
        rw [estimateAfter_zero] at hfirst
        omega
    · have hle := length_trimTrace_le messages budget tools
      have hall : (trimTrace messages budget tools).length = (trimOrder messages).length := by omega
      have hreached := trimRunning_reached hplain (Nat.le_refl (trimTrace messages budget tools).length)
      obtain ⟨k, hk, hfit⟩ | hpays := h.enough
      · have hlength := hstop hfit
        have heq : k = (trimTrace messages budget tools).length := by omega
        rw [heq] at hfit
        by_cases hzero : (trimTrace messages budget tools).length = 0
        · rw [hzero]
          exact Nat.le_of_eq (estimateAfter_zero messages tools)
        · have hover := (lt_length_trimTrace_iff messages budget tools 0).mp (by omega)
          have hfirst := (over_iff hplain 0).mp hover.2 0 (Nat.le_refl 0)
          rw [estimateAfter_zero] at hfirst
          omega
      · have hsum := (freed_nonneg_iff messages tools).mp hpays
        rw [← hall] at hsum
        omega
  · intro step hstepmem
    obtain ⟨k, hk⟩ := List.mem_iff_getElem?.mp hstepmem
    obtain ⟨hrunning, hmessages, hlt⟩ := hstep k step hk
    rw [hrunning, hmessages]
    exact trimRunning_reached hplain (by omega)
  · intro hfit
    have hlength := hstop (k := 0) (by rwa [estimateAfter_zero])
    exact List.eq_nil_of_length_eq_zero (by omega)
  · intro k step hk hfit
    obtain ⟨hrunning, hmessages, hlt⟩ := hstep k step hk
    have hlength := hstop (k := k + 1) (by rwa [estimateAfter, ← hmessages])
    omega
  · intro hshort
    rw [trimmed_eq]
    exact hfits hshort

theorem FreesOnly.trimRunning_eq (h : FreesOnly messages budget tools) {k : ℕ}
    (hk : k ≤ (trimTrace messages budget tools).length) :
    trimRunning messages tools k = estimateAfter messages tools k := by
  cases k with
  | zero =>
    have heq := estimateAfter_eq messages tools 0
    rw [excessAfter_zero] at heq
    omega
  | succ k =>
    have hread := getElem?_trimTrace messages budget tools k
    rw [if_pos ((lt_length_trimTrace_iff messages budget tools k).mp hk)] at hread
    exact h.running _ (List.mem_of_getElem? hread)

/-- As long as the messages do not fit, the loop goes on. -/
theorem FreesOnly.reaches (h : FreesOnly messages budget tools) {k : ℕ}
    (hk : k ≤ (trimOrder messages).length) (hover : ∀ i < k, budget < estimateAfter messages tools i) :
    k ≤ (trimTrace messages budget tools).length := by
  induction k with
  | zero => exact Nat.zero_le _
  | succ k ih =>
    have hreach := ih (by omega) fun i hi => hover i (by omega)
    refine (lt_length_trimTrace_iff messages budget tools k).mpr ⟨hk, fun i hi => ?_⟩
    have heq := h.trimRunning_eq (k := i) (by omega)
    have hi := hover i (by omega)
    omega

theorem FreesOnly.pays (h : FreesOnly messages budget tools) : StubsPay messages budget tools := by
  constructor
  · intro k c m hc hover hm
    have hlt := (List.getElem?_eq_some_iff.mp hc).1
    have hreach := h.reaches (k := k + 1) hlt fun i hi => hover i (by omega)
    have hrunning := h.trimRunning_eq hreach
    have heq := estimateAfter_eq messages tools (k + 1)
    have hexcess := excessAfter_succ hc
    refine (callTokens_eq_zero_iff m).mp ?_
    have hcalls : excess messages c = callTokens m := by
      rw [excess, hm]
      rfl
    omega
  · by_cases hfit : ∃ k ≤ (trimOrder messages).length, estimateAfter messages tools k ≤ budget
    · exact .inl hfit
    · refine .inr ((freed_nonneg_iff messages tools).mpr ?_)
      have hreach := h.reaches (Nat.le_refl _) fun i hi =>
        Nat.lt_of_not_le fun hle => hfit ⟨i, by omega, hle⟩
      have hall : (trimTrace messages budget tools).length = (trimOrder messages).length :=
        Nat.le_antisymm (length_trimTrace_le messages budget tools) hreach
      have hfrees := h.frees
      rw [trimmed_eq, hall] at hfrees
      rw [h.trimRunning_eq hreach]
      exact_mod_cast hfrees

/-- Stubbing old results frees what it says exactly when the stubs pay. -/
theorem trimOldToolMessages_freesOnly_iff (messages : List ChatMessage) (budget : ℕ)
    (tools : List ToolDefinition) :
    FreesOnly messages budget tools ↔ StubsPay messages budget tools :=
  ⟨FreesOnly.pays, StubsPay.frees⟩

/-- Four short results, the first of which is old enough to be stubbed. -/
def shortResults : List ChatMessage :=
  List.replicate 4 ⟨.tool, .text "ok", none, none⟩

theorem trimOldToolMessages_grows :
    ¬ estimateMessagesTokens (trimOldToolMessages shortResults (some 10) []).2 [] ≤
      estimateMessagesTokens shortResults [] := by
  decide +kernel

end Haruspex.ContextBudget
