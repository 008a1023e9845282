import Haruspex.Compaction.Model
import Haruspex.ContextBudget.Conversation

/-! A thread that grows while it is compacted: what is not sent any more has been summarised. -/
namespace Haruspex.Compaction
open ContextBudget
set_option autoImplicit false

variable {messages : List ChatMessage}

/-! ## Calls and results that directly follow them -/

/-- Message `k` is the result of a call of message `i`, with only results between them. -/
def Pair (messages : List ChatMessage) (i k : ℕ) (id : String) : Prop :=
  i < k ∧ (∃ a, messages[i]? = some a ∧ carries a id) ∧ (∃ t, messages[k]? = some t ∧ answers t id) ∧
    ∀ (j : ℕ) m, i < j → j < k → messages[j]? = some m → m.role = .tool

/-- No call lacks its result, and no result its call. -/
structure Paired (messages : List ChatMessage) : Prop where
  answered : ∀ (i : ℕ) a, messages[i]? = some a → a.role = .assistant →
    ∀ call ∈ a.calls, ∃ k, Pair messages i k call.id
  called : ∀ (k : ℕ) t, messages[k]? = some t → t.role = .tool → ∃ i id, Pair messages i k id

theorem Pair.shift {i k : ℕ} {id : String} (front back : List ChatMessage) (h : Pair messages i k id) :
    Pair (front ++ (messages ++ back)) (front.length + i) (front.length + k) id := by
  have hread {j : ℕ} {m : ChatMessage} (hj : messages[j]? = some m) :
      (front ++ (messages ++ back))[front.length + j]? = some m := by
    rw [List.getElem?_append_right (by omega), Nat.add_sub_cancel_left,
      List.getElem?_append_left (List.getElem?_eq_some_iff.mp hj).1, hj]
  obtain ⟨hlt, ⟨a, ha, hcarries⟩, ⟨t, ht, hanswers⟩, hbetween⟩ := h
  refine ⟨by omega, ⟨a, hread ha, hcarries⟩, ⟨t, hread ht, hanswers⟩, fun j m hij hjk hm => ?_⟩
  have hk := (List.getElem?_eq_some_iff.mp ht).1
  rw [List.getElem?_append_right (by omega), List.getElem?_append_left (by omega)] at hm
  exact hbetween (j - front.length) m (by omega) (by omega) hm

theorem Paired.append {messages' : List ChatMessage} (h : Paired messages) (h' : Paired messages') :
    Paired (messages ++ messages') := by
  have hfront {i k : ℕ} {id : String} (hpair : Pair messages i k id) :
      Pair (messages ++ messages') i k id := by
    simpa using hpair.shift [] messages'
  have hback {i k : ℕ} {id : String} (hpair : Pair messages' i k id) :
      Pair (messages ++ messages') (messages.length + i) (messages.length + k) id := by
    simpa using hpair.shift messages []
  constructor
  · intro i a ha hrole call hcall
    by_cases hi : i < messages.length
    · rw [List.getElem?_append_left hi] at ha
      obtain ⟨k, hpair⟩ := h.answered i a ha hrole call hcall
      exact ⟨k, hfront hpair⟩
    · rw [List.getElem?_append_right (by omega)] at ha
      obtain ⟨k, hpair⟩ := h'.answered _ a ha hrole call hcall
      have hi' : messages.length + (i - messages.length) = i := by omega
      exact ⟨messages.length + k, by simpa only [hi'] using hback hpair⟩
  · intro k t ht hrole
    by_cases hk : k < messages.length
    · rw [List.getElem?_append_left hk] at ht
      obtain ⟨i, id, hpair⟩ := h.called k t ht hrole
      exact ⟨i, id, hfront hpair⟩
    · rw [List.getElem?_append_right (by omega)] at ht
      obtain ⟨i, id, hpair⟩ := h'.called _ t ht hrole
      have hk' : messages.length + (k - messages.length) = k := by omega
      exact ⟨messages.length + i, id, by simpa only [hk'] using hback hpair⟩

/-- A cut before a message that is no result separates no call from its results. -/
theorem Paired.drop {cut : ℕ} {m : ChatMessage} (h : Paired messages) (hm : messages[cut]? = some m)
    (hrole : m.role ≠ .tool) : Paired (messages.drop cut) := by
  have hpair {i k : ℕ} {id : String} (hi : cut ≤ i) (hp : Pair messages i k id) :
      Pair (messages.drop cut) (i - cut) (k - cut) id := by
    obtain ⟨hlt, ⟨a, ha, hcarries⟩, ⟨t, ht, hanswers⟩, hbetween⟩ := hp
    refine ⟨by omega, ⟨a, ?_, hcarries⟩, ⟨t, ?_, hanswers⟩, fun j m hij hjk hj => ?_⟩
    · rw [List.getElem?_drop, Nat.add_sub_cancel' hi, ha]
    · rw [List.getElem?_drop, Nat.add_sub_cancel' (by omega), ht]
    · rw [List.getElem?_drop] at hj
      exact hbetween (cut + j) m (by omega) (by omega) hj
  constructor
  · intro i a ha hassistant call hcall
    rw [List.getElem?_drop] at ha
    obtain ⟨k, hp⟩ := h.answered _ a ha hassistant call hcall
    refine ⟨k - cut, ?_⟩
    have hshift := hpair (Nat.le_add_right cut i) hp
    rwa [Nat.add_sub_cancel_left] at hshift
  · intro k t ht htool
    rw [List.getElem?_drop] at ht
    obtain ⟨i, id, hp⟩ := h.called _ t ht htool
    have hle : cut ≤ i := by
      by_contra hlt
      obtain ⟨-, -, -, hbetween⟩ := hp
      by_cases hk : k = 0
      · rw [hk, Nat.add_zero, hm] at ht
        cases ht
        exact hrole htool
      · exact hrole (hbetween cut m (by omega) (by omega) hm)
    refine ⟨i - cut, id, ?_⟩
    have hshift := hpair hle hp
    rwa [Nat.add_sub_cancel_left] at hshift

/-- A message of its own: no result, and without calls. -/
theorem paired_singleton {m : ChatMessage} (hrole : m.role ≠ .tool) (hcalls : m.role = .assistant → m.calls = []) :
    Paired [m] := by
  have hread {i : ℕ} {a : ChatMessage} (ha : [m][i]? = some a) : a = m := by
    have hmem := List.mem_of_getElem? ha
    simpa using hmem
  constructor
  · intro i a ha hassistant call hcall
    rw [hread ha] at hassistant hcall
    rw [hcalls hassistant] at hcall
    cases hcall
  · intro k t ht htool
    rw [hread ht] at htool
    exact absurd htool hrole

/-! ## What a thread grows by -/

/-- A message of its own, or a call message with its results right after it. -/
inductive Block where
  | message (m : ChatMessage) (role : m.role ≠ .tool)
      (calls : m.role = .assistant → m.calls = [])
  | batch (a : ChatMessage) (results : List ChatMessage) (role : a.role = .assistant)
      (answered : ∀ call ∈ a.calls, ∃ t ∈ results, answers t call.id)
      (called : ∀ t ∈ results, ∃ call ∈ a.calls, answers t call.id)

def Block.added : Block → List ChatMessage
  | .message m _ _ => [m]
  | .batch a results _ _ _ => a :: results

theorem Block.paired (block : Block) : Paired block.added := by
  cases block with
  | message m role calls => exact paired_singleton role calls
  | batch a results role answered called =>
    have hpair {k : ℕ} {t : ChatMessage} {call : ToolCall} (hk : results[k]? = some t)
        (hcall : call ∈ a.calls) (ht : answers t call.id) : Pair (a :: results) 0 (k + 1) call.id := by
      refine ⟨Nat.zero_lt_succ k, ⟨a, rfl, role, call, hcall, rfl⟩, ⟨t, hk, ht⟩, fun j m hj hjk hm => ?_⟩
      cases j with
      | zero => omega
      | succ j =>
        obtain ⟨_, -, hanswers⟩ := called m (List.mem_of_getElem? hm)
        exact hanswers.1
    constructor
    · intro i m hm hassistant call hcall
      cases i with
      | zero =>
        cases hm
        obtain ⟨t, ht, hanswers⟩ := answered call hcall
        obtain ⟨k, hk⟩ := List.mem_iff_getElem?.mp ht
        exact ⟨k + 1, hpair hk hcall hanswers⟩
      | succ i =>
        obtain ⟨_, -, hanswers⟩ := called m (List.mem_of_getElem? hm)
        rw [hanswers.1] at hassistant
        cases hassistant
    · intro k t ht htool
      cases k with
      | zero =>
        cases ht
        rw [role] at htool
        cases htool
      | succ k =>
        obtain ⟨call, hcall, hanswers⟩ := called t (List.mem_of_getElem? ht)
        exact ⟨0, call.id, hpair ht hcall hanswers⟩

/-! ## The thread over time -/

/-- A compaction under way: what it was given. -/
structure Call where
  messages : List ChatMessage
  compaction : Option CodeCompaction
  opts : CompactOptions

/-- A compaction that succeeded: what it summarised, of how many messages, and its requests. -/
structure Summarised where
  start : ℕ
  cut : ℕ
  seen : ℕ
  opts : CompactOptions
  asked : List Asked

structure World where
  messages : List ChatMessage
  compaction : Option CodeCompaction
  running : Option Call
  summarised : List Summarised

inductive Step where
  | append (block : Block)
  | compact (opts : CompactOptions)
  | answered (ask : ℕ → ChatRequest → Reply)

namespace World

def empty : World := ⟨[], none, none, []⟩

def cut (w : World) : ℕ := (w.compaction.map CodeCompaction.cut).getD 0

/-- What the caller does with an outcome: a failed compaction, and one with nothing to summarise, leave the
session on the compaction it has. -/
def settle (w : World) (call : Call) : Except String (Option CodeCompaction) × List Asked → World
  | (.ok (some next), asked) =>
    { w with
      compaction := some next
      running := none
      summarised := w.summarised ++ [⟨(call.compaction.map CodeCompaction.cut).getD 0, next.cut,
        call.messages.length, call.opts, asked⟩] }
  | _ => { w with running := none }

def apply (w : World) : Step → World
  | .append block => { w with messages := w.messages ++ block.added }
  | .compact opts =>
    -- one at a time: a session is busy while it compacts
    match w.running with
    | some _ => w
    | none => { w with running := some ⟨w.messages, w.compaction, opts⟩ }
  | .answered ask =>
    match w.running with
    | none => w
    | some call => w.settle call (compactCodeThread call.messages call.compaction call.opts ask)

def run (steps : List Step) : World := steps.foldl apply empty

end World

/-! ## What holds of every state -/

structure Sound (w : World) : Prop where
  /-- The model is sent the messages past the cut as they are, after at most a note. -/
  view : ∀ header, ∃ note : List ChatMessage, note.length ≤ 1 ∧
    modelThread w.messages w.compaction header = note ++ w.messages.drop w.cut
  /-- A message before the cut was summarised once, one past it not at all. -/
  once : ∀ i, w.summarised.countP (fun s => s.start ≤ i ∧ i < s.cut) = if i < w.cut then 1 else 0
  given : ∀ s ∈ w.summarised,
    List.Forall₂ SentAs (renderForSummary (slice w.messages s.start s.cut)) (s.asked.flatMap Asked.chunk)
  seen : ∀ s ∈ w.summarised, s.cut < s.seen ∧ s.seen ≤ w.messages.length
  kept : ∀ s ∈ w.summarised,
    Kept (slice w.messages s.cut s.seen) s.opts.contextSize s.opts.calibration
  opens : ∀ c, w.compaction = some c → ∃ m, w.messages[c.cut]? = some m ∧ m.role = .user
  paired : ∀ header, Paired (modelThread w.messages w.compaction header)

/-- What the compaction under way was given still stands at the front of the thread. -/
structure Consistent (w : World) : Prop where
  sound : Sound w
  whole : Paired w.messages
  started : ∀ call, w.running = some call → call.messages <+: w.messages ∧ call.compaction = w.compaction

theorem modelThread_eq (messages : List ChatMessage) (compaction : Option CodeCompaction)
    (header : String) : ∃ note : List ChatMessage, note.length ≤ 1 ∧ Paired note ∧
      modelThread messages compaction header =
        note ++ messages.drop ((compaction.map CodeCompaction.cut).getD 0) := by
  cases compaction with
  | none => exact ⟨[], Nat.zero_le 1, ⟨fun i a ha => by simp at ha, fun k t ht => by simp at ht⟩, rfl⟩
  | some c =>
    refine ⟨[⟨.system, .text (header ++ "\n\n" ++ c.summary), none, none⟩], Nat.le_refl 1, ?_, rfl⟩
    exact paired_singleton (fun h => by cases h) (fun h => by cases h)

/-- The view is paired when the thread is and the cut stands at a user message. -/
theorem paired_modelThread {compaction : Option CodeCompaction} (h : Paired messages)
    (hopens : ∀ c, compaction = some c → ∃ m, messages[c.cut]? = some m ∧ m.role = .user)
    (header : String) : Paired (modelThread messages compaction header) := by
  obtain ⟨note, -, hnote, hview⟩ := modelThread_eq messages compaction header
  rw [hview]
  refine hnote.append ?_
  cases compaction with
  | none => exact h
  | some c =>
    obtain ⟨m, hm, hrole⟩ := hopens c rfl
    exact h.drop hm (by rw [hrole]; exact fun h => by cases h)

theorem slice_append {messages' : List ChatMessage} {start stop : ℕ} (h : stop ≤ messages.length) :
    slice (messages ++ messages') start stop = slice messages start stop := by
  rw [slice, slice, List.take_append_of_le_length h]

theorem Consistent.append {w : World} (h : Consistent w) (block : Block) :
    Consistent (w.apply (.append block)) := by
  obtain ⟨hsound, hwhole, hstarted⟩ := h
  have hpaired : Paired (w.messages ++ block.added) := hwhole.append block.paired
  have hopens : ∀ c, w.compaction = some c →
      ∃ m, (w.messages ++ block.added)[c.cut]? = some m ∧ m.role = .user := by
    intro c hc
    obtain ⟨m, hm, hrole⟩ := hsound.opens c hc
    refine ⟨m, ?_, hrole⟩
    rw [List.getElem?_append_left (List.getElem?_eq_some_iff.mp hm).1, hm]
  refine ⟨⟨?_, hsound.once, ?_, ?_, ?_, hopens, ?_⟩, hpaired, ?_⟩
  · intro header
    obtain ⟨note, hnote, -, hview⟩ := modelThread_eq (w.messages ++ block.added) w.compaction header
    exact ⟨note, hnote, hview⟩
  · intro s hs
    have hseen := hsound.seen s hs
    have hgiven := hsound.given s hs
    change List.Forall₂ SentAs (renderForSummary (slice (w.messages ++ block.added) s.start s.cut)) _
    rwa [slice_append (by omega)]
  · intro s hs
    have hseen := hsound.seen s hs
    refine ⟨hseen.1, ?_⟩
    change s.seen ≤ (w.messages ++ block.added).length
    rw [List.length_append]
    omega
  · intro s hs
    have hseen := hsound.seen s hs
    have hkept := hsound.kept s hs
    change Kept (slice (w.messages ++ block.added) s.cut s.seen) _ _
    rwa [slice_append hseen.2]
  · exact fun header => paired_modelThread hpaired hopens header
  · intro call hcall
    obtain ⟨hopens, hcompaction⟩ := hstarted call hcall
    exact ⟨hopens.trans (List.prefix_append _ _), hcompaction⟩

theorem Consistent.compact {w : World} (h : Consistent w) (opts : CompactOptions) :
    Consistent (w.apply (.compact opts)) := by
  unfold World.apply
  dsimp only
  split
  · exact h
  · obtain ⟨hsound, hwhole, -⟩ := h
    refine ⟨⟨hsound.view, hsound.once, hsound.given, hsound.seen, hsound.kept, hsound.opens,
      hsound.paired⟩, hwhole, ?_⟩
    intro call hcall
    cases hcall
    exact ⟨List.prefix_refl _, rfl⟩

/-- What a compaction that succeeds comes to. -/
theorem compactCodeThread_ok {compaction : Option CodeCompaction} {opts : CompactOptions}
    {ask : ℕ → ChatRequest → Reply} {next : CodeCompaction} {asked : List Asked}
    (h : compactCodeThread messages compaction opts ask = (.ok (some next), asked)) :
    chooseCut messages ((compaction.map CodeCompaction.cut).getD 0) opts.contextSize opts.calibration =
        some next.cut ∧
      List.Forall₂ SentAs
        (renderForSummary (slice messages ((compaction.map CodeCompaction.cut).getD 0) next.cut))
        (asked.flatMap Asked.chunk) := by
  unfold compactCodeThread at h
  dsimp only at h
  split at h
  · cases h
  · rename_i cut hcut
    cases hsummary : summarizeInChunks ⟨opts.prompt, compaction.map CodeCompaction.summary,
        opts.contextSize, opts.calibration, opts.instructions⟩
      (renderForSummary (slice messages ((compaction.map CodeCompaction.cut).getD 0) cut)) ask with
    | mk summary asked' =>
      rw [hsummary] at h
      dsimp only at h
      cases summary with
      | error e => cases h
      | ok text =>
        cases h
        obtain ⟨later, hlater, hsent⟩ := rollForward_ok (congrArg Prod.fst hsummary)
        refine ⟨hcut, ?_⟩
        have hasked : asked = later := (congrArg Prod.snd hsummary).symm.trans hlater
        rw [hasked]
        exact hsent

theorem Consistent.answered {w : World} (h : Consistent w) (ask : ℕ → ChatRequest → Reply) :
    Consistent (w.apply (.answered ask)) ∧ w.cut ≤ (w.apply (.answered ask)).cut := by
  unfold World.apply
  dsimp only
  split
  · exact ⟨h, Nat.le_refl _⟩
  · rename_i call hcall
    obtain ⟨hsound, hwhole, hstarted⟩ := h
    obtain ⟨⟨later, hlater⟩, hcompaction⟩ := hstarted call hcall
    generalize hresult : compactCodeThread call.messages call.compaction call.opts ask = result
    unfold World.settle
    split
    · rename_i next asked
      obtain ⟨hcut, hsent⟩ := compactCodeThread_ok hresult
      obtain ⟨hforward, ⟨m, hm, hrole⟩, hkept⟩ := chooseCut_spec hcut
      have hlength := (List.getElem?_eq_some_iff.mp hm).1
      have hstart : (call.compaction.map CodeCompaction.cut).getD 0 = w.cut := by rw [hcompaction]; rfl
      rw [hstart] at hforward hsent ⊢
      have hm' : w.messages[next.cut]? = some m := by
        rw [← hlater, List.getElem?_append_left hlength, hm]
      have hopens : ∀ c, some next = some c → ∃ m, w.messages[c.cut]? = some m ∧ m.role = .user := by
        intro c hc
        cases hc
        exact ⟨m, hm', hrole⟩
      refine ⟨⟨⟨?_, ?_, ?_, ?_, ?_, hopens, ?_⟩, hwhole, ?_⟩, Nat.le_of_lt hforward⟩
      · intro header
        obtain ⟨note, hnote, -, hview⟩ := modelThread_eq w.messages (some next) header
        exact ⟨note, hnote, hview⟩
      · intro i
        have honce := hsound.once i
        change (w.summarised ++ [_]).countP _ = if i < next.cut then 1 else 0
        rw [List.countP_append, honce, List.countP_singleton]
        split <;> split <;> split <;> simp_all <;> omega
      · intro s hs
        obtain hold | hnew := List.mem_append.mp hs
        · exact hsound.given s hold
        · rw [List.mem_singleton.mp hnew]
          change List.Forall₂ SentAs (renderForSummary (slice w.messages w.cut next.cut)) _
          rwa [← hlater, slice_append (by omega)]
      · intro s hs
        obtain hold | hnew := List.mem_append.mp hs
        · exact hsound.seen s hold
        · rw [List.mem_singleton.mp hnew]
          refine ⟨hlength, ?_⟩
          change call.messages.length ≤ w.messages.length
          rw [← hlater, List.length_append]
          omega
      · intro s hs
        obtain hold | hnew := List.mem_append.mp hs
        · exact hsound.kept s hold
        · rw [List.mem_singleton.mp hnew]
          change Kept (slice w.messages next.cut call.messages.length) _ _
          rw [← hlater, slice_append (Nat.le_refl _), slice, List.take_length]
          exact hkept
      · exact fun header => paired_modelThread hwhole hopens header
      · exact fun call hcall => by cases hcall
    · refine ⟨⟨⟨hsound.view, hsound.once, hsound.given, hsound.seen, hsound.kept, hsound.opens,
        hsound.paired⟩, hwhole, ?_⟩, Nat.le_refl _⟩
      exact fun call hcall => by cases hcall

theorem Consistent.apply {w : World} (h : Consistent w) (step : Step) :
    Consistent (w.apply step) ∧ w.cut ≤ (w.apply step).cut := by
  cases step with
  | append block => exact ⟨h.append block, Nat.le_refl _⟩
  | compact opts =>
    refine ⟨h.compact opts, ?_⟩
    unfold World.apply
    dsimp only
    split <;> exact Nat.le_refl _
  | answered ask => exact h.answered ask

theorem consistent_run (steps : List Step) : Consistent (World.run steps) := by
  induction steps using List.reverseRecOn with
  | nil =>
    have hpaired : Paired [] := ⟨fun i a ha => by simp at ha, fun k t ht => by simp at ht⟩
    refine ⟨⟨fun _ => ⟨[], Nat.zero_le 1, rfl⟩, fun i => by simp [World.run, World.empty, World.cut], ?_, ?_,
      ?_, ?_, fun _ => hpaired⟩, hpaired, ?_⟩ <;> intro _ h <;> cases h
  | append_singleton steps step ih =>
    rw [World.run, List.foldl_append]
    exact (ih.apply step).1

end Haruspex.Compaction
