import Haruspex.ContextBudget.Indices
import Haruspex.Library.LargestFirst

/-! The post-condition of the guard. The last resort cuts the message of the highest rank, over and
over, and gives up after 100 cuts: whether the prompt fits in the end is decided by how far each
message comes down when it is cut, and a cut message never comes down below the marker it gets. -/
namespace Haruspex.ContextBudget
open JavaScript
set_option autoImplicit false

/-! ## The last resort as a largest-first loop -/

/-- What `best` has found among the messages it has looked at. -/
def Found (bigEnough : ℕ) (messages : List ChatMessage) : Option (ℕ × ℕ) → Prop
  | none => ∀ j : ℕ, messages[j]?.bind (rank bigEnough) = none
  | some (i, r) => messages[i]?.bind (rank bigEnough) = some r ∧
      ∀ j r' : ℕ, messages[j]?.bind (rank bigEnough) = some r' → r' < r ∨ r' = r ∧ i ≤ j

theorem rank_concat {bigEnough : ℕ} {messages : List ChatMessage} {m : ChatMessage} {j r : ℕ}
    (h : (messages ++ [m])[j]?.bind (rank bigEnough) = some r) :
    messages[j]?.bind (rank bigEnough) = some r ∨
      j = messages.length ∧ rank bigEnough m = some r := by
  rcases Nat.lt_trichotomy j messages.length with hlt | heq | hgt
  · rw [List.getElem?_append_left hlt] at h
    exact Or.inl h
  · rw [heq, List.getElem?_concat_length] at h
    exact Or.inr ⟨heq, h⟩
  · have hlen : (messages ++ [m]).length ≤ j := by
      rw [List.length_append, List.length_singleton]
      omega
    rw [List.getElem?_eq_none hlen] at h
    cases h

theorem rank_lt_length {bigEnough : ℕ} {messages : List ChatMessage} {j r : ℕ}
    (h : messages[j]?.bind (rank bigEnough) = some r) : j < messages.length := by
  obtain ⟨m, hm, -⟩ := Option.bind_eq_some_iff.mp h
  exact (List.getElem?_eq_some_iff.mp hm).1

theorem Found.better {bigEnough : ℕ} {messages : List ChatMessage} {acc : Option (ℕ × ℕ)}
    (h : Found bigEnough messages acc) (m : ChatMessage) :
    Found bigEnough (messages ++ [m]) (better bigEnough acc m messages.length) := by
  have hnew : (messages ++ [m])[messages.length]?.bind (rank bigEnough) = rank bigEnough m := by
    rw [List.getElem?_concat_length]
    rfl
  have hkept : ∀ i : ℕ, i < messages.length →
      (messages ++ [m])[i]?.bind (rank bigEnough) = messages[i]?.bind (rank bigEnough) := by
    intro i hi
    rw [List.getElem?_append_left hi]
  unfold ContextBudget.better
  cases hm : rank bigEnough m with
  | none =>
    cases acc with
    | none =>
      intro j
      cases hj : (messages ++ [m])[j]?.bind (rank bigEnough) with
      | none => rfl
      | some r =>
        rcases rank_concat hj with hold | ⟨-, hlast⟩
        · rw [h j] at hold
          cases hold
        · rw [hm] at hlast
          cases hlast
    | some best =>
      obtain ⟨i, r⟩ := best
      obtain ⟨hi, hhighest⟩ := h
      refine ⟨(hkept i (rank_lt_length hi)).trans hi, ?_⟩
      intro j r' hj
      rcases rank_concat hj with hold | ⟨-, hlast⟩
      · exact hhighest j r' hold
      · rw [hm] at hlast
        cases hlast
  | some r =>
    cases acc with
    | none =>
      refine ⟨hnew.trans hm, ?_⟩
      intro j r' hj
      rcases rank_concat hj with hold | ⟨hlen, hlast⟩
      · rw [h j] at hold
        cases hold
      · rw [hm] at hlast
        cases hlast
        exact Or.inr ⟨rfl, hlen.ge⟩
    | some best =>
      obtain ⟨i, bestRank⟩ := best
      obtain ⟨hi, hhighest⟩ := h
      have hlt := rank_lt_length hi
      by_cases hr : bestRank < r
      · simp only [if_pos hr]
        refine ⟨hnew.trans hm, ?_⟩
        intro j r' hj
        rcases rank_concat hj with hold | ⟨hlen, hlast⟩
        · have hle := hhighest j r' hold
          exact Or.inl (by omega)
        · rw [hm] at hlast
          cases hlast
          exact Or.inr ⟨rfl, hlen.ge⟩
      · simp only [if_neg hr]
        refine ⟨(hkept i hlt).trans hi, ?_⟩
        intro j r' hj
        rcases rank_concat hj with hold | ⟨hlen, hlast⟩
        · exact hhighest j r' hold
        · rw [hm] at hlast
          cases hlast
          omega

theorem best_found (bigEnough : ℕ) (messages : List ChatMessage) :
    Found bigEnough messages
      (messages.zipIdx.foldl (fun acc (m, i) => better bigEnough acc m i) none) := by
  induction messages using List.reverseRecOn with
  | nil =>
    intro j
    rfl
  | append_singleton messages m ih =>
    rw [List.zipIdx_append, List.foldl_append, Nat.zero_add]
    exact ih.better m

theorem best_picks (bigEnough : ℕ) : LargestFirst.Picks (rank bigEnough) (best bigEnough) := by
  constructor
  · intro messages i hi
    have hfound := best_found bigEnough messages
    rw [best] at hi
    obtain ⟨⟨j, r⟩, hbest, e⟩ := Option.map_eq_some_iff.mp hi
    cases e
    rw [hbest] at hfound
    exact ⟨r, hfound⟩
  · intro messages hnone
    have hfound := best_found bigEnough messages
    rw [best, Option.map_eq_none_iff] at hnone
    rw [hnone] at hfound
    exact hfound

/-- Whether a prompt is within the budget. -/
def fits (budget : ℕ) (tools : List ToolDefinition) (messages : List ChatMessage) : Bool :=
  estimateMessagesTokens messages tools ≤ budget

theorem fits_iff {budget : ℕ} {tools : List ToolDefinition} {messages : List ChatMessage} :
    fits budget tools messages = true ↔ estimateMessagesTokens messages tools ≤ budget :=
  decide_eq_true_iff

theorem forceLoop_snd (budget : ℕ) (tools : List ToolDefinition) (guard : ℕ) (cutSystem : Bool)
    (messages : List ChatMessage) :
    (forceLoop budget tools guard cutSystem messages).2 =
      LargestFirst.run halve (best (budget / 4)) (fits budget tools) guard messages := by
  induction guard generalizing cutSystem messages with
  | zero => rfl
  | succ guard ih =>
    rw [forceLoop, LargestFirst.run]
    by_cases hfits : estimateMessagesTokens messages tools ≤ budget
    · rw [if_pos hfits, if_pos (fits_iff.mpr hfits)]
    · rw [if_neg hfits, if_neg (fun h => hfits (fits_iff.mp h))]
      cases best (budget / 4) messages with
      | none => rfl
      | some i => exact ih _ _

/-! ## When the guard meets its budget -/

/-- The messages that steps 1 to 3 leave. -/
def beforeForce (messages : List ChatMessage) (budget : ℕ) (tools : List ToolDefinition) :
    List ChatMessage :=
  (dropTurns (shorten messages budget tools).2.2 budget tools).2

/-- Cutting messages, each as often as it takes to bring all of them down to one rank, makes the
prompt fit, with no more than 100 cuts in all. -/
def CutsToFit (budget : ℕ) (tools : List ToolDefinition) (messages : List ChatMessage) : Prop :=
  ∃ cuts, LargestFirst.Fair (rank (budget / 4)) halve messages cuts ∧
    LargestFirst.total cuts messages ≤ 100 ∧
    estimateMessagesTokens (LargestFirst.cutBy halve cuts messages) tools ≤ budget

theorem forceFit_fits_iff (messages : List ChatMessage) (budget : ℕ) (tools : List ToolDefinition) :
    estimateMessagesTokens (forceFit messages budget tools).2 tools ≤ budget ↔
      CutsToFit budget tools messages := by
  have hloop := LargestFirst.run_done_iff (best_picks (budget / 4)) halve (fits budget tools) 100
    messages
  rw [← forceLoop_snd budget tools 100 false] at hloop
  simp only [fits_iff] at hloop
  exact hloop

theorem forceFit_of_fits {messages : List ChatMessage} {budget : ℕ} {tools : List ToolDefinition}
    (h : estimateMessagesTokens messages tools ≤ budget) :
    (forceFit messages budget tools).2 = messages := by
  rw [forceFit, forceLoop, if_pos h]

theorem fit_messages {contextSize : ℤ} (hctx : 0 < contextSize) (messages : List ChatMessage)
    (opts : FitOptions) : (fitMessagesToBudget messages contextSize opts).2 =
      if estimateMessagesTokens messages opts.tools ≤ effectiveBudget contextSize opts then messages
      else (forceFit (beforeForce messages (effectiveBudget contextSize opts) opts.tools)
        (effectiveBudget contextSize opts) opts.tools).2 := by
  have hpos : ¬ contextSize ≤ 0 := by omega
  rw [fitMessagesToBudget, if_neg hpos]
  by_cases hfits : estimateMessagesTokens messages opts.tools ≤ effectiveBudget contextSize opts
  · rw [if_pos hfits, if_pos hfits]
  · rw [if_neg hfits, if_neg hfits]
    show (if (¬ estimateMessagesTokens (beforeForce messages _ opts.tools) opts.tools ≤ _ : Bool)
      then forceFit (beforeForce messages _ opts.tools) _ opts.tools
      else (false, beforeForce messages _ opts.tools)).2 = _
    by_cases hafter : estimateMessagesTokens
        (beforeForce messages (effectiveBudget contextSize opts) opts.tools) opts.tools ≤
          effectiveBudget contextSize opts
    · rw [forceFit_of_fits hafter]
      simp [hafter]
    · simp [hafter]

/-! ## What the last resort leaves of a system prompt -/

theorem byteLength_replicate (n : ℕ) {c : Char} (hc : c.utf8Size = 1) :
    byteLength (String.ofList (List.replicate n c)) = n := by
  simp [byteLength, utf8Bytes, hc]

theorem byteLength_le_left (a b : String) : byteLength a ≤ byteLength (a ++ b) := by
  rw [byteLength_append]
  exact Nat.le_add_right _ _

theorem byteLength_le_right (a b : String) : byteLength b ≤ byteLength (a ++ b) := by
  rw [byteLength_append]
  exact Nat.le_add_left _ _

theorem byteLength_hint_le (total : ℕ) (dropped : ℤ) (hint : String) :
    byteLength hint ≤ byteLength (markerText total dropped hint) :=
  (byteLength_le_right _ hint).trans (byteLength_le_left _ _)

/-- A cut text holds the marker's hint. -/
theorem byteLength_truncated {text : String} {maxBytes : ℕ} (hint : String) (hmax : maxBytes ≠ 0)
    (hlong : maxBytes < byteLength text) :
    (truncateCapturedOutput text maxBytes hint).truncated = true ∧
      byteLength hint ≤ byteLength (truncateCapturedOutput text maxBytes hint).text := by
  obtain ⟨dropped, hcut⟩ := truncate_long hint hmax hlong
  rw [hcut]
  refine ⟨rfl, (byteLength_hint_le (byteLength text) dropped hint).trans ?_⟩
  dsimp only
  generalize markerText (byteLength text) dropped hint = marker
  rw [byteLength_append, byteLength_append, byteLength_append]
  omega

theorem byteLength_removed : byteLength removed = 25 := by decide +kernel

theorem byteLength_shellHint : 64 ≤ byteLength shellHint := by decide +kernel

/-- A text of 64 bytes or more is never removed: it keeps at least the marker of its cut. -/
theorem halve_long {m : ChatMessage} {text : String} (hm : m.content = .text text)
    (hlong : 64 ≤ byteLength text) :
    ∃ text', halve m = { m with content := .text text' } ∧ 64 ≤ byteLength text' := by
  have hhalf : ¬ byteLength text / 2 < 32 := by omega
  have hcut : (truncateCapturedOutput text (byteLength text / 2)).truncated = true ∧
      byteLength shellHint ≤ byteLength (truncateCapturedOutput text (byteLength text / 2)).text :=
    byteLength_truncated shellHint (by omega) (by omega)
  have hhint := byteLength_shellHint
  refine ⟨(truncateCapturedOutput text (byteLength text / 2)).text, ?_, by omega⟩
  rw [halve, hm]
  dsimp only
  rw [if_neg hhalf, hcut.1, if_pos rfl]

/-- A system prompt of some length. -/
structure LongSystem (m : ChatMessage) : Prop where
  role : m.role = .system
  long : ∃ text, m.content = .text text ∧ 64 ≤ byteLength text

/-- A message that no step cuts, stubs or drops by itself. -/
structure Small (budget : ℕ) (m : ChatMessage) : Prop where
  system : m.role ≠ .system
  tool : m.role ≠ .tool
  quarter : messageTokens m ≤ budget / 4
  small : messageTokens m ≤ oversizedMessageMaxTokens

theorem LongSystem.halve {m : ChatMessage} (h : LongSystem m) : LongSystem (halve m) := by
  obtain ⟨text, hm, hlong⟩ := h.long
  obtain ⟨text', hcut, hlong'⟩ := halve_long hm hlong
  rw [hcut]
  exact ⟨h.role, text', rfl, hlong'⟩

theorem LongSystem.rank {m : ChatMessage} (h : LongSystem m) (bigEnough : ℕ) :
    rank bigEnough m = some (1000000000 + messageTokens m) := by
  obtain ⟨text, hm, hlong⟩ := h.long
  have hkept : text ≠ removed := by
    intro e
    rw [e, byteLength_removed] at hlong
    omega
  rw [ContextBudget.rank, hm]
  dsimp only
  rw [if_neg hkept, h.role]
  simp

theorem Small.rank_lt {budget : ℕ} {m : ChatMessage} (h : Small budget m) {r : ℕ}
    (hr : rank (budget / 4) m = some r) : r < 1000000000 := by
  have hquarter := h.quarter
  have hsmall := h.small
  unfold rank at hr
  cases hm : m.content with
  | parts parts =>
    rw [hm] at hr
    cases hr
  | text text =>
    rw [hm] at hr
    dsimp only at hr
    by_cases hkept : text = removed
    · rw [if_pos hkept] at hr
      cases hr
    · rw [if_neg hkept, if_neg (by omega), if_neg h.system] at hr
      cases hr
      rw [oversizedMessageMaxTokens] at hsmall
      omega

variable {sys : ChatMessage} {rest : List ChatMessage} {budget : ℕ} {tools : List ToolDefinition}

/-- The last resort cuts nothing but the system prompt while the other messages are small. -/
theorem best_system (hsys : LongSystem sys) (hrest : ∀ m ∈ rest, Small budget m) :
    best (budget / 4) (sys :: rest) = some 0 := by
  have hpicks := best_picks (budget / 4)
  have hrank := hsys.rank (budget / 4)
  cases hbest : best (budget / 4) (sys :: rest) with
  | none =>
    have hnone := hpicks.nothing _ hbest 0
    rw [show (sys :: rest)[0]? = some sys from rfl, Option.bind_some, hrank] at hnone
    cases hnone
  | some i =>
    obtain ⟨r, hr, hhighest⟩ := hpicks.highest _ i hbest
    cases i with
    | zero => rfl
    | succ i =>
      obtain ⟨m, hm, hr⟩ := Option.bind_eq_some_iff.mp hr
      have hlow := (hrest m (List.mem_of_getElem? hm)).rank_lt hr
      have hhigh := hhighest 0 _ hrank
      omega

theorem forceLoop_system (tools : List ToolDefinition) (hsys : LongSystem sys)
    (hrest : ∀ m ∈ rest, Small budget m) (guard : ℕ) (cutSystem : Bool) :
    ∃ sys', (forceLoop budget tools guard cutSystem (sys :: rest)).2 = sys' :: rest := by
  induction guard generalizing sys cutSystem with
  | zero => exact ⟨sys, rfl⟩
  | succ guard ih =>
    rw [forceLoop]
    split
    · exact ⟨sys, rfl⟩
    · rw [best_system hsys hrest]
      exact ih hsys.halve _

/-! ## Prompts that do not fit -/

/-- Steps 1 and 2 leave the messages alone if none is to be stubbed and none is to be cut. -/
theorem shorten_idle {messages : List ChatMessage} (hstub : trimCandidates messages = [])
    (hcut : ∀ (i : ℕ) m, messages[i]? = some m → oversized? (oversizedTokenCap budget) m i = none) :
    (shorten messages budget tools).2.2 = messages := by
  have htrim : trimOldToolMessages messages (some budget) tools = (false, messages) := by
    rw [trimOldToolMessages, hstub]
    rfl
  have hnone : messages.zipIdx.filterMap
      (fun (m, i) => oversized? (oversizedTokenCap budget) m i) = [] := by
    rw [List.filterMap_eq_nil_iff]
    intro ⟨m, i⟩ hm
    exact hcut i m (List.mk_mem_zipIdx_iff_getElem?.mp hm)
  have htruncate : (truncateOversized messages budget tools).2 = messages := by
    rw [truncateOversized]
    dsimp only at hnone ⊢
    rw [hnone]
    rfl
  unfold shorten
  rw [htrim]
  split
  · dsimp only
    split
    · rfl
    · exact htruncate
  · dsimp only
    split
    · exact htruncate
    · rw [htruncate, htrim]

theorem shorten_none (hsys : LongSystem sys) (hrest : ∀ m ∈ rest, Small budget m) :
    (shorten (sys :: rest) budget tools).2.2 = sys :: rest := by
  refine shorten_idle ?_ ?_
  · have htool : ∀ m ∈ sys :: rest, m.role ≠ .tool := by
      intro m hm
      rcases List.mem_cons.mp hm with rfl | hm
      · rw [hsys.role]
        simp
      · exact (hrest m hm).tool
    rw [trimCandidates, indicesOf_nil (fun m hm => decide_eq_false (htool m hm))]
    rfl
  · intro i m hm
    have hcut : ¬ (m.role ≠ .system ∧ oversizedTokenCap budget < messageTokens m) := by
      intro ⟨hrole, hlarge⟩
      rcases List.mem_cons.mp (List.mem_of_getElem? hm) with rfl | hmem
      · exact hrole hsys.role
      · have hquarter := (hrest m hmem).quarter
        have hsmall := (hrest m hmem).small
        rw [oversizedTokenCap] at hlarge
        omega
    unfold oversized?
    split
    · exact if_neg (fun h => hcut ⟨h.1, h.2.1⟩)
    · rfl

theorem droppable_nil {messages : List ChatMessage}
    (h : messages.countP (fun m => m.role ≠ .system) ≤ protectedTurns * 2) :
    droppable messages = [] := by
  have hlen : (nonSystemIdx messages).length ≤ protectedTurns * 2 := by
    rw [nonSystemIdx, length_indicesOf]
    refine (List.countP_mono_left ?_).trans h
    intro m _ hm
    exact decide_eq_true (of_decide_eq_true hm).1
  rw [droppable, Nat.sub_eq_zero_of_le hlen]
  rfl

theorem dropTurns_none {messages : List ChatMessage}
    (h : messages.countP (fun m => m.role ≠ .system) ≤ protectedTurns * 2) :
    (dropTurns messages budget tools).2 = messages := by
  unfold dropTurns
  split
  · rfl
  · rw [dropOldestTurns, droppable_nil h]
    rfl

/-- A prompt whose recent messages are all small and do not fit together never fits: the last resort
cuts its system prompt down to the marker, over and over, and nothing else. -/
theorem fit_stuck_on_system {contextSize : ℤ} {opts : FitOptions} (hctx : 0 < contextSize)
    (hsys : LongSystem sys) (hrest : ∀ m ∈ rest, Small (effectiveBudget contextSize opts) m)
    (hrecent : rest.length ≤ protectedTurns * 2)
    (hover : effectiveBudget contextSize opts < estimateMessagesTokens rest opts.tools) :
    effectiveBudget contextSize opts <
      estimateMessagesTokens (fitMessagesToBudget (sys :: rest) contextSize opts).2 opts.tools := by
  have hest : ∀ m, estimateMessagesTokens (m :: rest) opts.tools =
      messageTokens m + estimateMessagesTokens rest opts.tools := by
    intro m
    rw [estimateMessagesTokens, estimateMessagesTokens, List.map_cons, List.sum_cons, Nat.add_assoc]
  have hcount : (sys :: rest).countP (fun m => m.role ≠ .system) ≤ protectedTurns * 2 := by
    rw [List.countP_cons_of_neg (by simp [hsys.role])]
    exact List.countP_le_length.trans hrecent
  have hbefore : beforeForce (sys :: rest) (effectiveBudget contextSize opts) opts.tools =
      sys :: rest := by
    rw [beforeForce, shorten_none hsys hrest, dropTurns_none hcount]
  have hno : ¬ estimateMessagesTokens (sys :: rest) opts.tools ≤
      effectiveBudget contextSize opts := by
    rw [hest]
    omega
  rw [fit_messages hctx, if_neg hno, hbefore, forceFit]
  obtain ⟨sys', hloop⟩ := forceLoop_system opts.tools hsys hrest 100 false
  rw [hloop, hest]
  omega

theorem estimateTokens_eq (text : String) : estimateTokens text = (2 * byteLength text + 6) / 7 := by
  rw [estimateTokens]
  split
  · rename_i h
    rw [h]
    rfl
  · rfl

/-- A message of `n` bytes. -/
def plain (role : Role) (n : ℕ) (c : Char) : ChatMessage :=
  ⟨role, .text (String.ofList (List.replicate n c)), none, none⟩

theorem messageTokens_plain (role : Role) (n : ℕ) {c : Char} (hc : c.utf8Size = 1) :
    messageTokens (plain role n c) = (2 * n + 6) / 7 + 4 := by
  rw [messageTokens, plain, messageText, estimateTokens_eq, byteLength_replicate n hc]
  rfl

/-- Eight messages of 3,500 bytes each. -/
def recentMessages : List ChatMessage :=
  List.replicate 4 (plain .user 3500 'u') ++ List.replicate 4 (plain .assistant 3500 'a')

def localOptions : FitOptions := ⟨2048, 3 / 2, []⟩

theorem effectiveBudget_local : effectiveBudget 8192 localOptions = 4096 := by decide +kernel

theorem plain_small {role : Role} {n budget : ℕ} {c : Char} (hc : c.utf8Size = 1)
    (hsystem : role ≠ .system) (htool : role ≠ .tool) (hquarter : (2 * n + 6) / 7 + 4 ≤ budget / 4)
    (hsmall : (2 * n + 6) / 7 + 4 ≤ 16000) : Small budget (plain role n c) := by
  refine ⟨hsystem, htool, ?_, ?_⟩ <;> rw [messageTokens_plain role n hc]
  · exact hquarter
  · exact hsmall

theorem recentMessages_small : ∀ m ∈ recentMessages, Small 4096 m := by
  intro m hm
  rcases List.mem_append.mp hm with hm | hm
  · rw [List.eq_of_mem_replicate hm]
    exact plain_small (by rfl) (by decide) (by decide) (by decide) (by decide)
  · rw [List.eq_of_mem_replicate hm]
    exact plain_small (by rfl) (by decide) (by decide) (by decide) (by decide)

theorem recentMessages_tokens : estimateMessagesTokens recentMessages [] = 8032 := by
  rw [estimateMessagesTokens, recentMessages, List.map_append, List.map_replicate,
    List.map_replicate, messageTokens_plain _ _ (by rfl), messageTokens_plain _ _ (by rfl)]
  rfl

end Haruspex.ContextBudget
