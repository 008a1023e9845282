import Haruspex.ToolBatches.Order

/-! The loop over the batches of one response. Its calls are orderly in every run exactly when no tool
is named like something every object inherits: such a call is never started. -/
namespace Haruspex.ToolBatches
set_option autoImplicit false

variable {T : Type} {calls : List ResolvedToolCall} {limit : ℕ}
  {throws : ResolvedToolCall → T → Bool} {outcome : ℕ → Outcome T}

/-! ## Orderly calls -/

/-- The most calls of one tool that may run at once. -/
def toolCap (limit : ℕ) (name : String) : ℕ := if name = "web_search" then 2 else limit

def safeAt (calls : List ResolvedToolCall) (i : ℕ) : Prop :=
  ∃ call, calls[i]? = some call ∧ parallelSafe call = true

/-- A call of the batch has finished, with a value. -/
def Finished (b : Batch T) (i : ℕ) : Prop := ∃ result, b.results[i]? = some (some result)

structure Orderly (calls : List ResolvedToolCall) (limit : ℕ) (outcome : ℕ → Outcome T)
    (s : Loop T) : Prop where
  distinct : s.batch.inFlight.Nodup
  overlap : ∀ i ∈ s.batch.inFlight, ∀ j ∈ s.batch.inFlight, i ≠ j → safeAt s.calls i ∧ safeAt s.calls j
  room : s.batch.inFlight.length ≤ limit
  cap : ∀ name, s.batch.inFlight.countP (ofTool s.calls name) ≤ toolCap limit name
  inOrder : s.delivered.map Prod.fst = calls.take s.delivered.length
  own : ∀ (p : ℕ) call result, s.delivered[p]? = some (call, result) → outcome p = .value result
  prompt : s.batch.failed = false → ∀ p < s.calls.length, (∀ q ≤ p, Finished s.batch q) →
    p < s.batch.delivered.length
  moving : s.batch.failed = false → s.batch.delivered.length < s.calls.length → s.batch.inFlight ≠ []
  finished : s.batch.failed = false → s.batch.delivered.length = s.calls.length →
    s.batch.resolved = true

/-- A step that a failure comes before starts nothing and hands nothing over, and one in which
something fails starts nothing. -/
structure Halts (s s' : Loop T) : Prop where
  stays : s.batch.failed = true → s'.batch.failed = true
  delivered : s.batch.failed = true → s'.delivered = s.delivered
  waiting : s'.batch.failed = true → s'.batch.waiting = s.batch.waiting
  inFlight : s'.batch.failed = true → ∀ i ∈ s'.batch.inFlight, i ∈ s.batch.inFlight
  pending : s'.batch.failed = true → s'.pending = s.pending

/-- The calls are orderly in every state of every run. -/
def OrderlyRuns (calls : List ResolvedToolCall) (limit : ℕ) : Prop :=
  (planToolBatches calls).flatten = calls ∧
    ∀ (T : Type) (throws : ResolvedToolCall → T → Bool) (outcome : ℕ → Outcome T) (s : Loop T),
      Loop.Reachable calls limit throws outcome s → Orderly calls limit outcome s ∧
        ∀ s', Loop.Step limit throws outcome s s' → Halts s s'

/-! ## What every run keeps -/

structure Loop.Kept (calls : List ResolvedToolCall) (limit : ℕ) (outcome : ℕ → Outcome T)
    (s : Loop T) : Prop where
  good : Good s.calls limit s.batch
  truthful : Truthful (fun i => outcome (s.handed.length + i)) s.batch
  overlaps : s.calls = [] ∨ Overlaps s.calls
  pending : ∀ batch ∈ s.pending, Overlaps batch
  split : s.handed.map Prod.fst ++ (s.calls ++ s.pending.flatten) = calls
  own : ∀ (p : ℕ) call result, s.handed[p]? = some (call, result) → outcome p = .value result

theorem Loop.Kept.own_delivered {s : Loop T} (h : s.Kept calls limit outcome) {p : ℕ}
    {call : ResolvedToolCall} {result : T} (hp : s.delivered[p]? = some (call, result)) :
    outcome p = .value result := by
  by_cases hlt : p < s.handed.length
  · rw [Loop.delivered, List.getElem?_append_left hlt] at hp
    exact h.own p call result hp
  · rw [Loop.delivered, List.getElem?_append_right (by omega)] at hp
    have hresult := (h.good.sound.given _ call result hp).2
    have hplace : s.handed.length + (p - s.handed.length) = p := by omega
    rw [← hplace]
    exact h.truthful _ result hresult

theorem Loop.start_kept (calls : List ResolvedToolCall) (limit : ℕ) (outcome : ℕ → Outcome T) :
    (Loop.start calls limit : Loop T).Kept calls limit outcome := by
  refine ⟨runToolBatch_good [] limit, runToolBatch_truthful [] limit, Or.inl rfl, ?_,
    planToolBatches_flatten calls, ?_⟩
  · intro batch hbatch
    exact planToolBatches_overlaps hbatch
  · intro p call result hp
    cases hp

theorem Loop.Kept.step {s s' : Loop T} (h : s.Kept calls limit outcome)
    (hstep : Loop.Step limit throws outcome s s') : s'.Kept calls limit outcome := by
  cases hstep with
  | call b hb => exact ⟨h.good.step hb, h.truthful.step hb, h.overlaps, h.pending, h.split, h.own⟩
  | next next pending hdone hnext =>
    have hall := ((h.good.going (h.good.unfailed hdone)).resolved).mp hdone
    have hdelivered : s.batch.delivered.map Prod.fst = s.calls := by
      rw [h.good.sound.delivered_calls, hall, List.take_length]
    refine ⟨runToolBatch_good next limit, runToolBatch_truthful next limit, Or.inr ?_, ?_, ?_,
      fun p call result hp => h.own_delivered hp⟩
    · exact h.pending next (by rw [hnext]; exact List.mem_cons_self)
    · intro batch hbatch
      exact h.pending batch (by rw [hnext]; exact List.mem_cons_of_mem _ hbatch)
    · have hsplit := h.split
      rw [hnext, List.flatten_cons] at hsplit
      rw [Loop.delivered, List.map_append, hdelivered, List.append_assoc]
      exact hsplit

theorem Loop.Reachable.kept {s : Loop T} (h : Loop.Reachable calls limit throws outcome s) :
    s.Kept calls limit outcome := by
  induction h with
  | refl => exact Loop.start_kept calls limit outcome
  | tail _ hstep ih => exact ih.step hstep

theorem capOf_le (limit : ℕ) (name : String) : capOf limit name ≤ toolCap limit name := by
  unfold capOf perToolCap toolCap
  split_ifs <;> simp

theorem Loop.Kept.overlap {s : Loop T} (h : s.Kept calls limit outcome) {i j : ℕ}
    (hi : i ∈ s.batch.inFlight) (hj : j ∈ s.batch.inFlight) (hij : i ≠ j) :
    safeAt s.calls i ∧ safeAt s.calls j := by
  have hinside : ∀ k ∈ s.batch.inFlight, k < s.calls.length := by
    intro k hk
    have hnone := h.good.sound.unfinished k (List.mem_append_right _ hk)
    rw [← h.good.sound.length]
    exact (List.getElem?_eq_some_iff.mp hnone).1
  have hilt := hinside i hi
  have hjlt := hinside j hj
  rcases h.overlaps with hnil | ⟨-, hsafe | hone⟩
  · rw [hnil] at hilt
    cases hilt
  · exact ⟨⟨_, List.getElem?_eq_getElem hilt, hsafe _ (List.getElem_mem hilt)⟩,
      ⟨_, List.getElem?_eq_getElem hjlt, hsafe _ (List.getElem_mem hjlt)⟩⟩
  · omega

theorem Loop.Kept.inOrder {s : Loop T} (h : s.Kept calls limit outcome) :
    s.delivered.map Prod.fst = calls.take s.delivered.length := by
  have hle := h.good.sound.next_le
  have hlen : (s.handed.map Prod.fst).length = s.handed.length := List.length_map _
  rw [← h.split, Loop.delivered, List.map_append, h.good.sound.delivered_calls, List.length_append,
    ← hlen, List.take_length_add_append, List.take_append_of_le_length hle]

theorem Loop.Kept.orderly {s : Loop T} (h : s.Kept calls limit outcome) (hlimit : 1 ≤ limit)
    (hnames : ∀ call ∈ calls, call.name ∉ inheritedNames) : Orderly calls limit outcome s := by
  have hmem : ∀ call ∈ s.calls, call ∈ calls := by
    intro call hcall
    rw [← h.split]
    exact List.mem_append_right _ (List.mem_append_left _ hcall)
  refine ⟨h.good.sound.nodup.of_append_right, fun i hi j hj hij => h.overlap hi hj hij,
    h.good.sound.room, fun name => Nat.le_trans (h.good.sound.cap name) (capOf_le limit name), h.inOrder,
    fun p call result hp => h.own_delivered hp, ?_, ?_, ?_⟩
  · intro hno p _ hfinished
    exact (h.good.going hno).handed_over hfinished
  · intro hno hleft
    exact h.good.inFlight_ne_nil hlimit (fun call hcall => hnames call (hmem call hcall)) hno hleft
  · intro hno hall
    exact (h.good.going hno).resolved.mpr hall

theorem Loop.Kept.halts {s s' : Loop T} (h : s.Kept calls limit outcome)
    (hstep : Loop.Step limit throws outcome s s') : Halts s s' := by
  cases hstep with
  | call b hb =>
    refine ⟨fun hfailed => (hb.stopped hfailed).1, fun hfailed => ?_,
      fun hfailed => (hb.starts_nothing hfailed).1, fun hfailed => (hb.starts_nothing hfailed).2,
      fun _ => rfl⟩
    show s.handed ++ b.delivered = s.handed ++ s.batch.delivered
    rw [(hb.stopped hfailed).2]
  | next next pending hdone hnext =>
    have hbefore := h.good.unfailed hdone
    have hafter : (runToolBatch next limit : Batch T).failed = false := runToolBatch_failed next limit
    have hno : ¬ s.batch.failed = true := by rw [hbefore]; decide
    have hno' : ¬ (runToolBatch next limit : Batch T).failed = true := by rw [hafter]; decide
    exact ⟨fun hf => absurd hf hno, fun hf => absurd hf hno, fun hf => absurd hf hno',
      fun hf => absurd hf hno', fun hf => absurd hf hno'⟩

/-! ## Every batch is reached -/

/-- Each step brings a call nearer to its end. -/
def Batch.weight (b : Batch T) : ℕ := 3 * b.waiting.length + 2 * b.deferred.length + b.active.length

theorem startLoop_weight (fuel : ℕ) (b : Batch T) :
    (startLoop calls limit fuel b).weight ≤ b.weight := by
  induction fuel generalizing b with
  | zero => exact Nat.le_refl _
  | succ fuel ih =>
    rw [startLoop]
    split
    · split
      · exact Nat.le_refl _
      · rename_i i hfound
        have hi := List.mem_of_find?_eq_some hfound
        have hpos := List.length_pos_of_mem hi
        have hone : (b.start calls i).weight ≤ b.weight := by
          simp only [Batch.weight, Batch.start, List.length_append, List.length_singleton,
            List.length_erase_of_mem hi]
          omega
        exact Nat.le_trans (ih _) hone
    · exact Nat.le_refl _

theorem deliver_weight (calls : List ResolvedToolCall) (throws : ResolvedToolCall → T → Bool)
    (b : Batch T) : (deliver calls throws b).weight = b.weight := by
  have hloop : Delivered b (deliverLoop calls throws calls.length b) :=
    deliverLoop_same throws calls.length b
  have hweight : (deliverLoop calls throws calls.length b).weight = b.weight := by
    rw [Batch.weight, Batch.weight, hloop.waiting, hloop.deferred, hloop.active]
  unfold deliver
  dsimp only
  split
  · exact hweight
  · split
    · exact hweight
    · exact hweight

theorem Step.weight_lt {b b' : Batch T} (hstep : Step calls limit throws outcome b b') :
    b'.weight < b.weight := by
  cases hstep with
  | tick i hi =>
    have hpos := List.length_pos_of_mem hi
    simp only [Batch.weight, Batch.tick, List.length_append, List.length_singleton,
      List.length_erase_of_mem hi]
    omega
  | settle i hi =>
    have hpos := List.length_pos_of_mem hi
    have hland : (b.landed i).weight < b.weight := by
      simp only [Batch.weight, Batch.landed, List.length_erase_of_mem hi]
      omega
    cases outcome i with
    | failure => exact hland
    | value result =>
      unfold ToolBatches.settle
      dsimp only
      split
      · exact hland
      · have hmore : (startMore calls limit
            (deliver calls throws ((b.landed i).record calls i result))).weight ≤ _ :=
          startLoop_weight _ _
        rw [deliver_weight] at hmore
        exact Nat.lt_of_le_of_lt hmore hland

/-- No result is refused, and every call succeeds. -/
def accepting : ResolvedToolCall → Unit → Bool := fun _ _ => false

def succeeding : ℕ → Outcome Unit := fun _ => .value ()

theorem deliverLoop_accepting (fuel : ℕ) (b : Batch Unit) (h : b.failed = false) :
    (deliverLoop calls accepting fuel b).failed = false := by
  induction fuel generalizing b with
  | zero => exact h
  | succ fuel ih =>
    rw [deliverLoop]
    split
    · exact ih _ h
    · exact h

theorem Step.unfailed {b b' : Batch Unit} (h : b.failed = false)
    (hstep : Step calls limit accepting succeeding b b') : b'.failed = false := by
  cases hstep with
  | tick i hi => exact h
  | settle i hi =>
    have hloop : (deliverLoop calls accepting calls.length ((b.landed i).record calls i ())).failed =
        false := deliverLoop_accepting calls.length _ h
    have hdeliver : (deliver calls accepting ((b.landed i).record calls i ())).failed = false := by
      unfold deliver
      dsimp only
      rw [if_neg (by rw [hloop]; decide)]
      split
      · exact hloop
      · exact hloop
    show (ToolBatches.settle calls limit accepting b i (.value ())).failed = false
    unfold ToolBatches.settle
    dsimp only
    rw [if_neg (by rw [h]; decide), startMore, startLoop_failed]
    exact hdeliver

/-- A batch in orderly runs can be brought to its end. -/
theorem OrderlyRuns.completes (hruns : OrderlyRuns calls limit) {s : Loop Unit}
    (hs : Loop.Reachable calls limit accepting succeeding s) (hno : s.batch.failed = false) :
    ∃ b : Batch Unit, Loop.Reachable calls limit accepting succeeding { s with batch := b } ∧
      b.failed = false ∧ b.resolved = true := by
  induction hn : s.batch.weight using Nat.strongRecOn generalizing s with
  | _ n ih =>
    obtain ⟨horderly, -⟩ := hruns.2 Unit accepting succeeding s hs
    by_cases hall : s.batch.delivered.length = s.calls.length
    · exact ⟨s.batch, hs, hno, horderly.finished hno hall⟩
    · have hle := hs.kept.good.sound.next_le
      have hflight := horderly.moving hno (by omega)
      obtain ⟨i, hi⟩ := List.exists_mem_of_ne_nil _ hflight
      obtain ⟨b, hb⟩ : ∃ b, Step s.calls limit accepting succeeding s.batch b := by
        rcases List.mem_append.mp hi with hi | hi
        · exact ⟨_, Step.tick s.batch i hi⟩
        · exact ⟨_, Step.settle s.batch i hi⟩
      have hs' : Loop.Reachable calls limit accepting succeeding { s with batch := b } :=
        hs.tail (Loop.Step.call s b hb)
      have hrest := ih b.weight (hn ▸ hb.weight_lt) hs' (hb.unfailed hno) rfl
      exact hrest

theorem OrderlyRuns.reaches (hruns : OrderlyRuns calls limit) (before : List (List ResolvedToolCall))
    {batch : List ResolvedToolCall} {after : List (List ResolvedToolCall)} {s : Loop Unit}
    (hs : Loop.Reachable calls limit accepting succeeding s) (hno : s.batch.failed = false)
    (hpending : s.pending = before ++ batch :: after) :
    ∃ s' : Loop Unit, Loop.Reachable calls limit accepting succeeding s' ∧ s'.calls = batch ∧
      s'.batch = runToolBatch batch limit := by
  induction before generalizing s with
  | nil =>
    obtain ⟨b, hb, hno', hdone⟩ := hruns.completes hs hno
    exact ⟨_, hb.tail (Loop.Step.next { s with batch := b } batch after hdone hpending), rfl, rfl⟩
  | cons first before ih =>
    obtain ⟨b, hb, hno', hdone⟩ := hruns.completes hs hno
    exact ih (hb.tail (Loop.Step.next { s with batch := b } first _ hdone hpending))
      (runToolBatch_failed first limit) rfl

/-- A call named like something every object inherits is never started. -/
theorem inherited_stuck {call : ResolvedToolCall} (hname : call.name ∈ inheritedNames) :
    (runToolBatch [call] limit : Batch T).inFlight = [] ∧
      (runToolBatch [call] limit : Batch T).delivered = [] := by
  have hcap : underCap limit 0 call.name = false := by
    have hsearch : call.name ≠ "web_search" := by
      intro e
      rw [e] at hname
      revert hname
      decide
    rw [underCap, perToolCap, if_neg hsearch, if_pos hname]
  have hfound : [0].find? ((fresh [call] : Batch T).canStart [call] limit) = none := by
    rw [List.find?_singleton, if_neg]
    show ¬ underCap limit 0 call.name = true
    rw [hcap]
    decide
  have hstart : (runToolBatch [call] limit : Batch T) = fresh [call] := by
    show startLoop [call] limit 1 (fresh [call]) = fresh [call]
    rw [startLoop, show (fresh [call] : Batch T).waiting = [0] from rfl, hfound]
    exact ite_self _
  rw [hstart]
  exact ⟨rfl, rfl⟩

/-- Whatever the outcomes are and in whatever order the calls finish, they are orderly exactly when no
call is named like something every object inherits. -/
theorem orderly_runs_iff (calls : List ResolvedToolCall) (limit : ℕ) (hlimit : 1 ≤ limit) :
    OrderlyRuns calls limit ↔ ∀ call ∈ calls, call.name ∉ inheritedNames := by
  constructor
  · intro hruns call hcall hname
    rw [← planToolBatches_flatten calls, List.mem_flatten] at hcall
    obtain ⟨batch, hbatch, hcall⟩ := hcall
    have hsingle : batch = [call] := by
      rcases (planToolBatches_overlaps hbatch).2 with hsafe | hone
      · exact absurd hname (parallelSafe_not_inherited (hsafe call hcall))
      · obtain ⟨only, rfl⟩ := List.length_eq_one_iff.mp hone
        rw [List.mem_singleton.mp hcall]
    obtain ⟨before, after, hplan⟩ := List.append_of_mem hbatch
    obtain ⟨s, hs, hscalls, hsbatch⟩ := hruns.reaches before Relation.ReflTransGen.refl
      (runToolBatch_failed [] limit) hplan
    obtain ⟨hflight, hdelivered⟩ : (runToolBatch [call] limit : Batch Unit).inFlight = [] ∧
        (runToolBatch [call] limit : Batch Unit).delivered = [] := inherited_stuck hname
    rw [hsingle] at hscalls hsbatch
    refine ((hruns.2 Unit accepting succeeding s hs).1).moving ?_ ?_ ?_
    · rw [hsbatch]
      exact runToolBatch_failed [call] limit
    · rw [hsbatch, hdelivered, hscalls]
      exact Nat.zero_lt_one
    · rw [hsbatch]
      exact hflight
  · intro hnames
    refine ⟨planToolBatches_flatten calls, ?_⟩
    intro T throws outcome s hs
    exact ⟨hs.kept.orderly hlimit hnames, fun s' hstep => hs.kept.halts hstep⟩

/-- Two searches, a page and a file to write, three at a time. -/
theorem orderly_runs_iff_research : OrderlyRuns [⟨"call_0", "web_search"⟩, ⟨"call_1", "web_search"⟩,
    ⟨"call_2", "fetch_url"⟩, ⟨"call_3", "fs_write_text"⟩] 3 :=
  (orderly_runs_iff _ 3 (by decide)).mpr (by decide)

/-- A call of a tool named `constructor` waits for ever. -/
theorem constructor_stuck : ¬ OrderlyRuns [⟨"call_0", "constructor"⟩] 4 := by
  intro hruns
  have hstuck : (runToolBatch [⟨"call_0", "constructor"⟩] 4 : Batch Unit).inFlight = [] ∧
      (runToolBatch [⟨"call_0", "constructor"⟩] 4 : Batch Unit).delivered = [] :=
    inherited_stuck (by decide)
  have hnext : Loop.Step 4 accepting succeeding (Loop.start [⟨"call_0", "constructor"⟩] 4)
      ⟨[], [⟨"call_0", "constructor"⟩], runToolBatch [⟨"call_0", "constructor"⟩] 4, []⟩ :=
    Loop.Step.next _ _ _ rfl rfl
  have horderly := (hruns.2 Unit accepting succeeding _ (Relation.ReflTransGen.single hnext)).1
  refine horderly.moving (runToolBatch_failed _ 4) ?_ hstuck.1
  show (runToolBatch [⟨"call_0", "constructor"⟩] 4 : Batch Unit).delivered.length < 1
  rw [hstuck.2]
  exact Nat.zero_lt_one

end Haruspex.ToolBatches
