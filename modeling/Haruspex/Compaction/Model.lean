import Haruspex.Compaction.Summarize

/-! Compaction of a Code session (`code/compaction.ts`): a summary stands in for the older turns, and the
thread itself is never rewritten. -/
namespace Haruspex.Compaction
open JavaScript ContextBudget
set_option autoImplicit false

structure CodeCompaction where
  /-- Where the summary ends (`at`). -/
  cut : ℕ
  summary : String

def keepRecent : ℚ := 1 / 4

def resultClipBytes : ℕ := 1200

def argClipChars : ℕ := 120

def summaryHeader : String :=
  "[Summary of this session's earlier turns. " ++ "Files may have changed since: " ++
    "read a file again rather than relying on this.]"

/-- What the model is sent: the summary note, then the messages after it. -/
def modelThread (messages : List ChatMessage) (compaction : Option CodeCompaction)
    (header : String := summaryHeader) : List ChatMessage :=
  match compaction with
  | none => messages
  | some c => ⟨.system, .text (header ++ "\n\n" ++ c.summary), none, none⟩ :: messages.drop c.cut

/-! ## Where to cut -/

def slice (messages : List ChatMessage) (start stop : ℕ) : List ChatMessage :=
  (messages.take stop).drop start

/-- Where a turn opens: each user message after this place. -/
def turnOpenings (messages : List ChatMessage) (after : ℕ) : List ℕ :=
  (List.range messages.length).filter (fun i =>
    after < i ∧ messages[i]?.any (fun m => m.role = .user))

/-- The search backwards over the earlier openings, the newest of them first. -/
def extendTail (messages : List ChatMessage) (keep : ℚ) : List ℕ → ℕ → ℕ → ℕ
  | [], cut, _ => cut
  | opening :: earlier, cut, tail =>
    let more := estimateMessagesTokens (slice messages opening cut) []
    if keep < (tail + more : ℕ) then cut else extendTail messages keep earlier opening (tail + more)

def chooseCut (messages : List ChatMessage) (start : ℕ) (contextSize : ℤ) (calibration : Calibration) :
    Option ℕ :=
  match (turnOpenings messages start).reverse with
  | [] => none
  | last :: earlier =>
    let keep := contextSize * keepRecent / calibration.val
    if (estimateMessagesTokens (messages.drop start) [] : ℚ) ≤ keep then none
    else
      let cut := extendTail messages keep earlier last (estimateMessagesTokens (messages.drop last) [])
      if start < cut then some cut else none

/-! ## What the summary is made from -/

/-- `name(main argument)`. -/
def callLabel (name arguments : String) : String :=
  let shown := ["path", "relPath", "command", "pattern", "query", "url"].findSome? (fun key =>
    match (Json.parse arguments).bind (fun parsed => parsed.field? key) with
    | some (.string value) => some value
    | _ => none)
  match shown with
  | some value => name ++ "(" ++ sliceTo value argClipChars ++ ")"
  | none => name

def images : MessageContent → ℕ
  | .text _ => 0
  | .parts parts => parts.countP (fun part => match part with
    | .text _ => false
    | .imageUrl _ => true)

def renderMessage (m : ChatMessage) : String :=
  let text := messageText m.content
  match m.role with
  | .user =>
    "User: " ++ text ++
      (if images m.content = 0 then "" else " [" ++ toString (images m.content) ++ " image(s)]")
  | .assistant =>
    let prose := answerForSummary text
    let calls := m.calls.map (fun c => "→ " ++ callLabel c.name c.arguments)
    "\n".intercalate (((if prose = "" then "" else "Assistant: " ++ prose) :: calls).filter (· ≠ ""))
  | .tool => "← " ++ (truncateCapturedOutput text resultClipBytes).text
  | .system => "Note: " ++ text

/-- One message into the turns so far: a user message opens one. -/
def addLine (turns : List (List String)) (m : ChatMessage) : List (List String) :=
  let turns := if m.role = .user ∨ turns = [] then turns ++ [[]] else turns
  let line := renderMessage m
  if line = "" then turns else turns.modify (turns.length - 1) (· ++ [line])

def turnLines (messages : List ChatMessage) : List (List String) := messages.foldl addLine []

/-- The span as compact text, one string per turn. -/
def renderForSummary (messages : List ChatMessage) : List String :=
  ((turnLines messages).map (fun turn => "\n".intercalate turn)).filter (· ≠ "")

/-- What one message adds to the lines. -/
theorem flatten_addLine (turns : List (List String)) (m : ChatMessage) :
    (addLine turns m).flatten = turns.flatten ++ [renderMessage m].filter (· ≠ "") := by
  have hlast (turns : List (List String)) (line : String) (h : turns ≠ []) :
      (turns.modify (turns.length - 1) (· ++ [line])).flatten = turns.flatten ++ [line] := by
    induction turns with
    | nil => exact absurd rfl h
    | cons turn turns ih =>
      cases turns with
      | nil => simp
      | cons next turns =>
        have hrest := ih (List.cons_ne_nil next turns)
        simp only [List.length_cons, Nat.add_sub_cancel, List.modify_succ_cons, List.flatten_cons] at hrest ⊢
        rw [hrest]
        simp only [List.append_assoc]
  have hopened : (if m.role = .user ∨ turns = [] then turns ++ [[]] else turns) ≠ [] ∧
      (if m.role = .user ∨ turns = [] then turns ++ [[]] else turns).flatten = turns.flatten := by
    split
    · simp
    · rename_i hturns
      exact ⟨fun hnil => hturns (.inr hnil), rfl⟩
  unfold addLine
  dsimp only
  split
  · rename_i hline
    rw [hopened.2]
    simp [hline]
  · rename_i hline
    rw [hlast _ _ hopened.1, hopened.2]
    simp [hline]

/-- Every message of the span is in its text, in order. -/
theorem flatten_turnLines (messages : List ChatMessage) :
    (turnLines messages).flatten = (messages.map renderMessage).filter (· ≠ "") := by
  induction messages using List.reverseRecOn with
  | nil => rfl
  | append_singleton messages m ih =>
    rw [turnLines, List.foldl_append, List.foldl_cons, List.foldl_nil, ← turnLines, flatten_addLine, ih,
      List.map_append, List.filter_append, List.map_singleton]

/-! ## Compacting -/

structure CompactOptions where
  contextSize : ℤ
  calibration : Calibration
  instructions : Option String
  prompt : String

/-- Summarise the thread up to a new cut; none when there is nothing new to summarise. Also yields the
requests made. -/
def compactCodeThread (messages : List ChatMessage) (compaction : Option CodeCompaction)
    (opts : CompactOptions) (ask : ℕ → ChatRequest → Reply) :
    Except String (Option CodeCompaction) × List Asked :=
  let start := (compaction.map CodeCompaction.cut).getD 0
  match chooseCut messages start opts.contextSize opts.calibration with
  | none => (.ok none, [])
  | some cut =>
    let (summary, asked) := summarizeInChunks
      ⟨opts.prompt, compaction.map CodeCompaction.summary, opts.contextSize, opts.calibration,
        opts.instructions⟩
      (renderForSummary (slice messages start cut)) ask
    (summary.map (fun summary => some ⟨cut, summary⟩), asked)

/-! ## Estimates of a slice -/

theorem estimate_append (front back : List ChatMessage) :
    estimateMessagesTokens (front ++ back) [] =
      estimateMessagesTokens front [] + estimateMessagesTokens back [] := by
  simp [estimateMessagesTokens, toolsTokens]

theorem estimate_drop (messages : List ChatMessage) {start stop : ℕ} (h : start ≤ stop) :
    estimateMessagesTokens (messages.drop start) [] =
      estimateMessagesTokens (messages.drop stop) [] +
        estimateMessagesTokens (slice messages start stop) [] := by
  have hcut : messages.drop start = slice messages start stop ++ messages.drop stop := by
    rw [slice, List.drop_take, ← Nat.add_sub_cancel' h, ← List.drop_drop, Nat.add_sub_cancel' h,
      List.take_append_drop]
  rw [hcut, estimate_append, Nat.add_comm]

/-! ## The cut that is chosen -/

theorem mem_turnOpenings {messages : List ChatMessage} {after i : ℕ} :
    i ∈ turnOpenings messages after ↔ after < i ∧ ∃ m, messages[i]? = some m ∧ m.role = .user := by
  unfold turnOpenings
  simp only [List.mem_filter, List.mem_range, decide_eq_true_eq, Option.any_eq_true, Bool.decide_and,
    Bool.and_eq_true]
  constructor
  · rintro ⟨-, hafter, m, hm, hrole⟩
    exact ⟨hafter, m, hm, by simpa using hrole⟩
  · rintro ⟨hafter, m, hm, hrole⟩
    exact ⟨(List.getElem?_eq_some_iff.mp hm).1, hafter, m, hm, by simpa using hrole⟩

/-- What the search backwards keeps is within what it may keep, or it is the last turn. -/
theorem extendTail_spec {messages : List ChatMessage} {keep : ℚ} {earlier : List ℕ} {cut tail last : ℕ}
    (hsorted : (cut :: earlier).Pairwise (· > ·))
    (htail : tail = estimateMessagesTokens (messages.drop cut) [])
    (hfits : (tail : ℚ) ≤ keep ∨ cut = last) :
    extendTail messages keep earlier cut tail ∈ cut :: earlier ∧
      ((estimateMessagesTokens (messages.drop (extendTail messages keep earlier cut tail)) [] : ℚ) ≤ keep ∨
        extendTail messages keep earlier cut tail = last) := by
  induction earlier generalizing cut tail with
  | nil =>
    refine ⟨List.mem_cons_self, ?_⟩
    rw [extendTail, ← htail]
    exact hfits
  | cons opening earlier ih =>
    unfold extendTail
    dsimp only
    split
    · refine ⟨List.mem_cons_self, ?_⟩
      rw [← htail]
      exact hfits
    · rename_i hmore
      rw [List.pairwise_cons] at hsorted
      have hle : opening ≤ cut := Nat.le_of_lt (hsorted.1 opening List.mem_cons_self)
      have hnext : tail + estimateMessagesTokens (slice messages opening cut) [] =
          estimateMessagesTokens (messages.drop opening) [] := by
        rw [htail, estimate_drop messages hle]
      obtain ⟨hmem, hkept⟩ := ih hsorted.2 hnext (.inl (not_lt.mp hmore))
      exact ⟨List.mem_cons_of_mem cut hmem, hkept⟩

/-- One turn is left: no user message but the first. -/
def SingleTurn (tail : List ChatMessage) : Prop := ∀ m ∈ tail.tail, m.role ≠ .user

/-- The kept tail is within its share of the window, or a single turn. -/
def Kept (tail : List ChatMessage) (contextSize : ℤ) (calibration : Calibration) : Prop :=
  estimateMessagesTokens tail [] * calibration.val ≤ contextSize * keepRecent ∨ SingleTurn tail

theorem chooseCut_spec {messages : List ChatMessage} {start cut : ℕ} {contextSize : ℤ}
    {calibration : Calibration} (h : chooseCut messages start contextSize calibration = some cut) :
    start < cut ∧ (∃ m, messages[cut]? = some m ∧ m.role = .user) ∧
      Kept (messages.drop cut) contextSize calibration := by
  unfold chooseCut at h
  split at h
  · cases h
  · rename_i last earlier hopenings
    dsimp only at h
    split at h
    · cases h
    · split at h
      · rename_i hcut
        have hpairs : (turnOpenings messages start).reverse.Pairwise (· > ·) := by
          rw [List.pairwise_reverse]
          exact List.pairwise_lt_range.filter _
        rw [hopenings] at hpairs
        obtain ⟨hmem, hkept⟩ := @extendTail_spec _ _ _ _ _ last hpairs rfl (.inr rfl)
        cases h
        have hopening {i : ℕ} (hi : i ∈ last :: earlier) : i ∈ turnOpenings messages start := by
          rw [← List.mem_reverse, hopenings]
          exact hi
        refine ⟨hcut, (mem_turnOpenings.mp (hopening hmem)).2, ?_⟩
        obtain hfits | hlast := hkept
        · refine .inl ?_
          have hpos : (0 : ℚ) < calibration.val := lt_of_lt_of_le zero_lt_one calibration.property
          exact (le_div_iff₀ hpos).mp hfits
        · refine .inr fun m hm huser => ?_
          rw [hlast, List.tail_drop] at hm
          obtain ⟨k, hk⟩ := List.mem_iff_getElem?.mp hm
          rw [List.getElem?_drop] at hk
          have hafter := (mem_turnOpenings.mp (hopening List.mem_cons_self)).1
          have hlater : last + 1 + k ∈ turnOpenings messages start :=
            mem_turnOpenings.mpr ⟨by omega, m, hk, huser⟩
          rw [← List.mem_reverse, hopenings, List.mem_cons] at hlater
          obtain heq | hearlier := hlater
          · omega
          · have hlt := (List.pairwise_cons.mp hpairs).1 _ hearlier
            omega
      · cases h

end Haruspex.Compaction
