import Haruspex.JavaScript.Text
import Haruspex.Library.Runs
import Mathlib.Algebra.Order.BigOperators.Group.List
import Mathlib.Algebra.Order.Group.Nat

/-! What a pass of memory extraction reads of a conversation (`agent/memory/extraction.ts`). -/
namespace Haruspex.Memory
open JavaScript
set_option autoImplicit false

/-! ## What the user typed -/

def openTag : String := "<skill_content name=\""

def closeTag : String := "</skill_content>"

/-- What follows the note between a skill and what was typed. -/
def afterSlashNote (text : List Char) : Option (List Char) :=
  let lead := "\n\nThe user ran the \"".toList
  if lead <+: text then
    let quoted := (text.drop lead.length).dropWhile (fun c => c ≠ '"')
    let middle := "\" skill.".toList
    if middle <+: quoted then
      let line := (quoted.drop middle.length).takeWhile (fun c => c ≠ '\n')
      let rest := (quoted.drop middle.length).dropWhile (fun c => c ≠ '\n')
      if line.getLast? = some ':' ∧ "\n\n".toList <+: rest then some (rest.drop 2) else none
    else none
  else none

/-- The request, without the skill that a `/name` put ahead of it. -/
def typedText (text : String) : String :=
  if startsWith text openTag then
    match (afterWord closeTag.toList text.toList).bind afterSlashNote with
    | some typed => String.ofList typed
    | none => text
  else text

/-! ## New turns -/

structure DbMessage where
  role : String
  content : String
  sortOrder : ℤ
  deriving DecidableEq

abbrev TranscriptMessage := DbMessage

def minNewMessages : ℕ := 4

def maxTranscriptChars : ℕ := 24000

/-- A user's or an assistant's message with something in it. -/
def readable (m : DbMessage) : Bool :=
  (m.role = "user" || m.role = "assistant") && trim m.content ≠ ""

def collectNewTurns (messages : List DbMessage) (extractedTo : ℤ) : List TranscriptMessage :=
  messages.filter (fun m => extractedTo < m.sortOrder && readable m)

def line (m : TranscriptMessage) : String :=
  if m.role = "user" then "User: " ++ trim (typedText m.content)
  else "Assistant: " ++ trim m.content

/-- Of messages newest first, those whose lines fit, after so many characters. -/
def keepNewest (total : ℕ) : List TranscriptMessage → List TranscriptMessage
  | [] => []
  | m :: older =>
    if maxTranscriptChars < total + length (line m) then []
    else m :: keepNewest (total + length (line m)) older

/-- The messages of the transcript. -/
def kept (fresh : List TranscriptMessage) : List TranscriptMessage := (keepNewest 0 fresh.reverse).reverse

def renderTranscript (fresh : List TranscriptMessage) : String :=
  "\n\n".intercalate ((kept fresh).map line)

/-! ## What fits -/

/-- From a message on, the lines of a pass are not too long. -/
def Fits (fresh : List TranscriptMessage) (m : TranscriptMessage) : Prop :=
  ((fresh.filter (fun m' => m.sortOrder ≤ m'.sortOrder)).map (fun m' => length (line m'))).sum ≤
    maxTranscriptChars

instance (fresh : List TranscriptMessage) (m : TranscriptMessage) : Decidable (Fits fresh m) :=
  inferInstanceAs (Decidable (_ ≤ _))

theorem mem_keepNewest_iff {m : TranscriptMessage} {newest : List TranscriptMessage}
    (horder : newest.Pairwise (fun a b => b.sortOrder < a.sortOrder)) (hmem : m ∈ newest) (total : ℕ) :
    m ∈ keepNewest total newest ↔
      total + ((newest.filter (fun m' => m.sortOrder ≤ m'.sortOrder)).map
        (fun m' => length (line m'))).sum ≤ maxTranscriptChars := by
  induction newest generalizing total with
  | nil => cases hmem
  | cons x older ih =>
    rw [List.pairwise_cons] at horder
    have hx : m.sortOrder ≤ x.sortOrder := by
      cases hmem with
      | head => exact Int.le_refl _
      | tail _ hold => exact Int.le_of_lt (horder.1 m hold)
    rw [List.filter_cons_of_pos (by simpa using hx), List.map_cons, List.sum_cons]
    unfold keepNewest
    by_cases hfull : maxTranscriptChars < total + length (line x)
    · rw [if_pos hfull]
      refine ⟨(nomatch ·), fun h => ?_⟩
      omega
    · rw [if_neg hfull, ← Nat.add_assoc]
      cases hmem with
      | head =>
        have hnone : older.filter (fun m' => m.sortOrder ≤ m'.sortOrder) = [] := by
          rw [List.filter_eq_nil_iff]
          intro m' hm'
          have := horder.1 m' hm'
          simpa using this
        rw [hnone]
        exact ⟨fun _ => by simpa using hfull, fun _ => List.mem_cons_self⟩
      | tail _ hold =>
        have hne : m ≠ x := fun heq => by
          have := horder.1 m hold
          rw [heq] at this
          exact Int.lt_irrefl _ this
        rw [List.mem_cons, or_iff_right hne, ih horder.2 hold]

/-- A new message is in the transcript just when it fits, with all that came after it. -/
theorem mem_kept_iff {fresh : List TranscriptMessage} {m : TranscriptMessage}
    (horder : fresh.Pairwise (fun a b => a.sortOrder < b.sortOrder)) (hmem : m ∈ fresh) :
    m ∈ kept fresh ↔ Fits fresh m := by
  unfold kept Fits
  rw [List.mem_reverse, mem_keepNewest_iff (List.pairwise_reverse.mpr horder)
    (List.mem_reverse.mpr hmem), Nat.zero_add, List.filter_reverse, List.map_reverse, List.sum_reverse]

end Haruspex.Memory

/-! Passes of memory extraction over a conversation that goes on, any of which may fail or be killed
(`agent/memory/extraction.ts`, `db/memories.rs`). -/
namespace Haruspex.Memory
open JavaScript Runs
set_option autoImplicit false

/-! ## A conversation and its passes -/

/-- How far a pass has come. -/
inductive Phase where
  | idle
  | cursorRead (extractedTo : ℤ)
  | collected (fresh : List TranscriptMessage)
  | submitted (fresh : List TranscriptMessage)
  | stored (fresh : List TranscriptMessage)

structure World where
  messages : List DbMessage
  memoryEnabled : Bool
  memoryExtractedTo : ℤ
  phase : Phase
  /-- The transcripts of the passes whose candidates went to storing, the last first. -/
  offered : List (List TranscriptMessage)

inductive Step where
  | say (role content : String)
  | enable (enabled : Bool)
  | readCursor (active : Bool)
  | readConversation
  | runTurn
  | storeCandidates
  | advance
  /-- The pass fails, or is killed. -/
  | stop

namespace World

/-- A conversation that was just created. -/
def start : World := ⟨[], true, -1, .idle, []⟩

/-- `COALESCE(MAX(sort_order), 0) + 1` -/
def nextOrder (messages : List DbMessage) : ℤ :=
  ((messages.map DbMessage.sortOrder).max?.getD 0) + 1

/-- `Math.max(...fresh.map((m) => m.sortOrder))`, of one or more messages. -/
def highWater (fresh : List TranscriptMessage) : ℤ :=
  (fresh.map DbMessage.sortOrder).max?.getD 0

def apply : Step → World → World
  | .say role content, w =>
    { w with messages := w.messages ++ [⟨role, content, nextOrder w.messages⟩] }
  | .enable enabled, w => { w with memoryEnabled := enabled }
  | .readCursor active, w =>
    match w.phase with
    | .idle =>
      if active && w.memoryEnabled then { w with phase := .cursorRead w.memoryExtractedTo } else w
    | _ => w
  | .readConversation, w =>
    match w.phase with
    | .cursorRead extractedTo =>
      let fresh := collectNewTurns w.messages extractedTo
      { w with phase := if fresh.length < minNewMessages then .idle else .collected fresh }
    | _ => w
  | .runTurn, w =>
    match w.phase with
    | .collected fresh => { w with phase := .submitted fresh }
    | _ => w
  | .storeCandidates, w =>
    match w.phase with
    | .submitted fresh => { w with phase := .stored fresh, offered := kept fresh :: w.offered }
    | _ => w
  | .advance, w =>
    match w.phase with
    | .stored fresh =>
      { w with phase := .idle, memoryExtractedTo := max w.memoryExtractedTo (highWater fresh) }
    | _ => w
  | .stop, w => { w with phase := .idle }

/-! ## What is promised -/

/-- Some transcript has a message. -/
def Offered (offered : List (List TranscriptMessage)) (m : DbMessage) : Prop :=
  ∃ transcript ∈ offered, m ∈ transcript

/-- What was said up to the watermark was offered. -/
def Covered (w : World) : Prop :=
  ∀ m ∈ w.messages, readable m = true → m.sortOrder ≤ w.memoryExtractedTo → Offered w.offered m

/-- When a pass moves the watermark, each of its messages fits, or was offered by an earlier pass. -/
def InTime (w : World) : Step → Prop
  | .advance =>
    match w.phase with
    | .stored fresh => ∀ m ∈ fresh, Fits fresh m ∨ Offered w.offered.tail m
    | _ => True
  | _ => True

instance (offered : List (List TranscriptMessage)) (m : DbMessage) :
    Decidable (Offered offered m) :=
  inferInstanceAs (Decidable (∃ transcript ∈ offered, m ∈ transcript))

instance (w : World) (step : Step) : Decidable (InTime w step) :=
  match step, w with
  | .advance, ⟨_, _, _, .stored fresh, offered⟩ =>
    inferInstanceAs (Decidable (∀ m ∈ fresh, Fits fresh m ∨ Offered offered.tail m))
  | .advance, ⟨_, _, _, .idle, _⟩ | .advance, ⟨_, _, _, .cursorRead _, _⟩
  | .advance, ⟨_, _, _, .collected _, _⟩ | .advance, ⟨_, _, _, .submitted _, _⟩
  | .say _ _, _ | .enable _, _ | .readCursor _, _ | .readConversation, _ | .runTurn, _
  | .storeCandidates, _ | .stop, _ => inferInstanceAs (Decidable True)

/-! ## Invariants -/

/-- What a pass found to read is all that is new, as far as it goes. -/
structure Collects (messages : List DbMessage) (extractedTo : ℤ) (fresh : List TranscriptMessage) :
    Prop where
  nonempty : fresh ≠ []
  order : fresh.Pairwise (fun a b => a.sortOrder < b.sortOrder)
  known : ∀ m ∈ fresh, m ∈ messages ∧ readable m = true
  all : ∀ m ∈ messages, readable m = true → extractedTo < m.sortOrder →
    m.sortOrder ≤ highWater fresh → m ∈ fresh

def PhaseSound (w : World) : Phase → Prop
  | .idle => True
  | .cursorRead extractedTo => extractedTo = w.memoryExtractedTo
  | .collected fresh => Collects w.messages w.memoryExtractedTo fresh
  | .submitted fresh => Collects w.messages w.memoryExtractedTo fresh
  | .stored fresh => Collects w.messages w.memoryExtractedTo fresh ∧
    ∃ earlier, w.offered = kept fresh :: earlier

structure Sound (w : World) : Prop where
  order : w.messages.Pairwise (fun a b => a.sortOrder < b.sortOrder)
  behind : w.memoryExtractedTo < nextOrder w.messages
  phase : PhaseSound w w.phase

theorem le_max {orders : List ℤ} {n : ℤ} (h : n ∈ orders) : n ≤ orders.max?.getD 0 := by
  obtain ⟨top, htop⟩ := Option.isSome_iff_exists.mp (List.isSome_max?_of_mem h)
  rw [htop]
  exact (List.max?_eq_some_iff.mp htop).2 n h

theorem highWater_mem {fresh : List TranscriptMessage} (h : fresh ≠ []) :
    ∃ m ∈ fresh, m.sortOrder = highWater fresh := by
  have hsome : ((fresh.map DbMessage.sortOrder).max?).isSome := by
    rw [List.isSome_max?_iff]
    simpa using h
  obtain ⟨top, htop⟩ := Option.isSome_iff_exists.mp hsome
  obtain ⟨m, hm, heq⟩ := List.mem_map.mp (List.max?_eq_some_iff.mp htop).1
  refine ⟨m, hm, ?_⟩
  rw [highWater, htop]
  exact heq

theorem lt_nextOrder {messages : List DbMessage} {m : DbMessage} (h : m ∈ messages) :
    m.sortOrder < nextOrder messages :=
  Int.lt_add_one_of_le (le_max (List.mem_map_of_mem h))

theorem Collects.highWater_lt {messages : List DbMessage} {extractedTo : ℤ}
    {fresh : List TranscriptMessage} (h : Collects messages extractedTo fresh) :
    highWater fresh < nextOrder messages := by
  obtain ⟨m, hm, heq⟩ := highWater_mem h.nonempty
  rw [← heq]
  exact lt_nextOrder (h.known m hm).1

/-! ## What each step keeps -/

/-- What is said next comes after all that a pass read. -/
theorem Collects.say {messages : List DbMessage} {extractedTo : ℤ} {fresh : List TranscriptMessage}
    (h : Collects messages extractedTo fresh) {new : DbMessage}
    (hnew : new.sortOrder = nextOrder messages) :
    Collects (messages ++ [new]) extractedTo fresh := by
  refine { h with
    known := fun m hm => ⟨List.mem_append_left _ (h.known m hm).1, (h.known m hm).2⟩
    all := fun m hm hreadable hlater hup => ?_ }
  cases List.mem_append.mp hm with
  | inl hold => exact h.all m hold hreadable hlater hup
  | inr hlast =>
    have hlt := h.highWater_lt
    rw [List.mem_singleton.mp hlast, hnew] at hup
    omega

/-- A pass reads all that is new. -/
theorem collects_collectNewTurns {messages : List DbMessage} (extractedTo : ℤ)
    (horder : messages.Pairwise (fun a b => a.sortOrder < b.sortOrder))
    (hmany : ¬ (collectNewTurns messages extractedTo).length < minNewMessages) :
    Collects messages extractedTo (collectNewTurns messages extractedTo) := by
  refine ⟨fun hnil => hmany (by rw [hnil]; decide), horder.filter _, fun m hm => ?_,
    fun m hm hreadable hlater _ => ?_⟩
  · unfold collectNewTurns at hm
    rw [List.mem_filter, Bool.and_eq_true] at hm
    exact ⟨hm.1, hm.2.2⟩
  · unfold collectNewTurns
    rw [List.mem_filter, Bool.and_eq_true]
    exact ⟨hm, by simpa using hlater, hreadable⟩

theorem say_sound {w : World} (h : Sound w) (role content : String) :
    Sound (w.apply (.say role content)) := by
  let new : DbMessage := ⟨role, content, nextOrder w.messages⟩
  have hbehind := h.behind
  have hlast : new.sortOrder < nextOrder (w.messages ++ [new]) :=
    lt_nextOrder (List.mem_append_right _ (List.mem_singleton_self _))
  refine ⟨?_, Int.lt_trans hbehind hlast, ?_⟩
  · refine List.pairwise_append.mpr ⟨h.order, List.pairwise_singleton _ _, fun m hm m' hm' => ?_⟩
    rw [List.mem_singleton.mp hm']
    exact lt_nextOrder hm
  · have hphase := h.phase
    show PhaseSound { w with messages := w.messages ++ [new] } w.phase
    cases hcase : w.phase with
    | idle => trivial
    | cursorRead extractedTo =>
      rw [hcase] at hphase
      exact hphase
    | collected fresh =>
      rw [hcase] at hphase
      exact Collects.say hphase rfl
    | submitted fresh =>
      rw [hcase] at hphase
      exact Collects.say hphase rfl
    | stored fresh =>
      rw [hcase] at hphase
      exact ⟨hphase.1.say rfl, hphase.2⟩

theorem apply_sound {w : World} (h : Sound w) (step : Step) : Sound (w.apply step) := by
  have hphase := h.phase
  cases step with
  | say role content => exact say_sound h role content
  | enable enabled => exact ⟨h.order, h.behind, hphase⟩
  | stop => exact ⟨h.order, h.behind, trivial⟩
  | readCursor active =>
    unfold apply
    dsimp only
    split
    · split
      · exact ⟨h.order, h.behind, rfl⟩
      · exact h
    · exact h
  | readConversation =>
    unfold apply
    dsimp only
    split
    · rename_i extractedTo hcase
      rw [hcase] at hphase
      refine ⟨h.order, h.behind, ?_⟩
      show PhaseSound _ (if _ then _ else _)
      split
      · trivial
      · rename_i hmany
        obtain rfl : extractedTo = w.memoryExtractedTo := hphase
        exact collects_collectNewTurns w.memoryExtractedTo h.order hmany
    · exact h
  | runTurn =>
    unfold apply
    dsimp only
    split
    · rename_i fresh hcase
      rw [hcase] at hphase
      exact ⟨h.order, h.behind, hphase⟩
    · exact h
  | storeCandidates =>
    unfold apply
    dsimp only
    split
    · rename_i fresh hcase
      rw [hcase] at hphase
      exact ⟨h.order, h.behind, hphase, w.offered, rfl⟩
    · exact h
  | advance =>
    unfold apply
    dsimp only
    split
    · rename_i fresh hcase
      rw [hcase] at hphase
      have hbehind := h.behind
      have hwater := hphase.1.highWater_lt
      refine ⟨h.order, ?_, trivial⟩
      show max w.memoryExtractedTo (highWater fresh) < nextOrder w.messages
      omega
    · exact h

/-- Whether a step leaves something behind that was not offered. -/
theorem covered_iff {w : World} (h : Sound w) (hcovered : Covered w) (step : Step) :
    Covered (w.apply step) ↔ InTime w step := by
  cases step with
  | say role content =>
    refine ⟨fun _ => trivial, fun _ m hm hreadable hup => ?_⟩
    cases List.mem_append.mp hm with
    | inl hold => exact hcovered m hold hreadable hup
    | inr hlast =>
      have hbehind := h.behind
      rw [List.mem_singleton.mp hlast] at hup
      exact absurd hup (by simpa [apply] using hbehind)
  | enable enabled => exact ⟨fun _ => trivial, fun _ => hcovered⟩
  | stop => exact ⟨fun _ => trivial, fun _ => hcovered⟩
  | readCursor active =>
    refine ⟨fun _ => trivial, fun _ => ?_⟩
    unfold apply
    dsimp only
    split
    · split <;> exact hcovered
    · exact hcovered
  | readConversation =>
    refine ⟨fun _ => trivial, fun _ => ?_⟩
    unfold apply
    dsimp only
    split <;> exact hcovered
  | runTurn =>
    refine ⟨fun _ => trivial, fun _ => ?_⟩
    unfold apply
    dsimp only
    split <;> exact hcovered
  | storeCandidates =>
    refine ⟨fun _ => trivial, fun _ => ?_⟩
    unfold apply
    dsimp only
    split
    · intro m hm hreadable hup
      obtain ⟨transcript, hmem, hin⟩ := hcovered m hm hreadable hup
      exact ⟨transcript, List.mem_cons_of_mem _ hmem, hin⟩
    · exact hcovered
  | advance =>
    have hphase := h.phase
    unfold apply InTime
    dsimp only
    split
    · rename_i fresh hcase
      rw [hcase] at hphase
      obtain ⟨hcollects, earlier, hoffered⟩ := hphase
      have hiff {m : DbMessage} (hm : m ∈ fresh) :
          Offered w.offered m ↔ Fits fresh m ∨ Offered w.offered.tail m := by
        rw [hoffered, List.tail_cons, ← mem_kept_iff hcollects.order hm]
        simp [Offered]
      constructor
      · intro hafter m hm
        obtain ⟨hmem, hreadable⟩ := hcollects.known m hm
        refine (hiff hm).mp (hafter m hmem hreadable ?_)
        exact Int.le_trans (le_max (List.mem_map_of_mem hm)) (Int.le_max_right _ _)
      · intro htime m hm hreadable hup
        by_cases hbefore : m.sortOrder ≤ w.memoryExtractedTo
        · exact hcovered m hm hreadable hbefore
        · have hup' : m.sortOrder ≤ max w.memoryExtractedTo (highWater fresh) := hup
          have hfresh := hcollects.all m hm hreadable (by omega) (by omega)
          exact (hiff hfresh).mpr (htime m hfresh)
    · exact ⟨fun _ => trivial, fun _ => hcovered⟩

/-! ## Any number of passes -/

theorem start_sound : Sound start := ⟨List.Pairwise.nil, by decide, trivial⟩

theorem start_covered : Covered start := by
  intro m hm
  cases hm

/-- In every run, what was said up to the watermark was offered in each state reached, just when each
pass that moves the watermark has the room for what no earlier one offered. -/
theorem covered_everywhere_iff (steps : List Step) :
    EveryStep apply start steps (fun w step => Covered (w.apply step)) ↔
      EveryStep apply start steps InTime := by
  have hfree : EveryStep apply start steps (fun _ _ => True) := fun _ _ _ _ => trivial
  refine everyStep_iff (fun w => Sound w ∧ Covered w)
    (fun w step h _ => covered_iff h.1 h.2 step) (fun w step h _ htime => ?_)
    ⟨start_sound, start_covered⟩ hfree
  exact ⟨apply_sound h.1 step, (covered_iff h.1 h.2 step).mpr htime⟩

/-! ## A long message -/

/-- A line no longer than the rest of the text it stands in. -/
theorem Fits.line_le {fresh : List TranscriptMessage} {m m' : TranscriptMessage} (h : Fits fresh m)
    (hmem : m' ∈ fresh) (hlater : m.sortOrder ≤ m'.sortOrder) :
    length (line m') ≤ maxTranscriptChars := by
  have hkept : m' ∈ fresh.filter (fun m' => m.sortOrder ≤ m'.sortOrder) :=
    List.mem_filter.mpr ⟨hmem, by simpa using hlater⟩
  exact Nat.le_trans (List.le_sum_of_mem (List.mem_map.mpr ⟨m', hkept, rfl⟩)) h

def long (n : ℕ) : String := String.ofList (List.replicate n 'x')

theorem dropWhile_isBlank_replicate (n : ℕ) :
    (List.replicate n 'x').dropWhile isBlank = List.replicate n 'x' := by
  cases n with
  | zero => rfl
  | succ n => rw [List.replicate_succ, List.dropWhile_cons_of_neg (by decide)]

theorem trim_long (n : ℕ) : trim (long n) = long n := by
  unfold trim long
  rw [String.toList_ofList, dropWhile_isBlank_replicate, List.reverse_replicate,
    dropWhile_isBlank_replicate, List.reverse_replicate]

theorem typedText_long (n : ℕ) : typedText (long n) = long n := by
  have hplain : startsWith (long n) openTag = false := by
    unfold startsWith long
    rw [decide_eq_false_iff_not, String.toList_ofList]
    intro hopens
    have hmem := hopens.subset (show '<' ∈ openTag.toList by decide)
    rw [List.mem_replicate] at hmem
    exact absurd hmem.2 (by decide)
  unfold typedText
  rw [hplain]
  rfl

theorem length_line_long (n : ℕ) (order : ℤ) :
    length (line ⟨"user", long n, order⟩) = n + 6 := by
  unfold line length
  rw [if_pos rfl, typedText_long, trim_long]
  simp [long, JavaScript.toUnits, List.length_flatMap, Nat.add_comm]
  omega

theorem long_ne_empty (n : ℕ) : long (n + 1) ≠ "" := by
  intro h
  have hchars := congrArg String.toList h
  rw [long, String.toList_ofList, List.replicate_succ] at hchars
  cases hchars

/-- A readable message with a long one after it. -/
def longMessages (n : ℕ) : List DbMessage :=
  [⟨"user", "I use tabs.", 1⟩, ⟨"assistant", "Noted.", 2⟩, ⟨"user", long (n + 1), 3⟩,
    ⟨"assistant", "Right.", 4⟩]

theorem collectNewTurns_longMessages (n : ℕ) :
    collectNewTurns (longMessages n) (-1) = longMessages n := by
  unfold collectNewTurns longMessages
  rw [List.filter_cons_of_pos (by decide), List.filter_cons_of_pos (by decide),
    List.filter_cons_of_pos, List.filter_cons_of_pos (by decide), List.filter_nil]
  unfold readable
  simp [trim_long, long_ne_empty]

/-- Three short messages and one too long, and a pass begun after them. -/
def longMessage (n : ℕ) : List Step :=
  [.say "user" "I use tabs.", .say "assistant" "Noted.", .say "user" (long (n + 1)),
    .say "assistant" "Right.", .readCursor true]

theorem run_longMessage (n : ℕ) :
    run apply start (longMessage n) = ⟨longMessages n, true, -1, .cursorRead (-1), []⟩ := rfl

def wholePass : List Step := [.readConversation, .runTurn, .storeCandidates]

theorem run_wholePass {w : World} {extractedTo : ℤ} (hphase : w.phase = .cursorRead extractedTo)
    (hmany : ¬ (collectNewTurns w.messages extractedTo).length < minNewMessages) :
    run apply w wholePass =
      { w with
        phase := .stored (collectNewTurns w.messages extractedTo)
        offered := kept (collectNewTurns w.messages extractedTo) :: w.offered } := by
  have hread : w.apply .readConversation =
      { w with phase := .collected (collectNewTurns w.messages extractedTo) } := by
    unfold apply
    dsimp only
    rw [hphase]
    dsimp only
    rw [if_neg hmany]
  unfold wholePass
  rw [run_cons, hread]
  rfl

/-- A pass over the messages leaves out the first, and moves the watermark past it. -/
theorem longMessage_not_inTime {n : ℕ} (hlong : maxTranscriptChars ≤ n) :
    ¬ EveryStep apply start (longMessage n ++ wholePass ++ [.advance]) InTime := by
  intro htime
  have hmany : ¬ (collectNewTurns (longMessages n) (-1)).length < minNewMessages := by
    rw [collectNewTurns_longMessages]
    exact (by decide : ¬ 4 < 4)
  rw [everyStep_append, everyStep_cons, run_append, run_longMessage, run_wholePass rfl hmany,
    collectNewTurns_longMessages] at htime
  obtain ⟨-, hpass, -⟩ := htime
  obtain hfits | ⟨_, hnone, _⟩ := hpass _ List.mem_cons_self
  · have hmem : ⟨"user", long (n + 1), 3⟩ ∈ longMessages n := by simp [longMessages]
    have hline := Fits.line_le hfits hmem (by simp)
    rw [length_line_long] at hline
    omega
  · cases hnone

theorem skipped_short :
    ¬ ∀ steps : List Step, EveryStep apply start steps (fun w step => Covered (w.apply step)) := by
  intro h
  have htime := (covered_everywhere_iff _).mp
    (h (longMessage maxTranscriptChars ++ wholePass ++ [.advance]))
  exact longMessage_not_inTime (Nat.le_refl _) htime

end World

end Haruspex.Memory
