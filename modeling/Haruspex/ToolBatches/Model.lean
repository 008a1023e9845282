import Mathlib.Logic.Relation
import Mathlib.Data.Nat.Notation
import Mathlib.Data.List.Induction

/-! Running one response's tool calls side by side (`parallelTools.ts`, with the loop over the batches
in `executeToolCalls`, `toolCalls.ts`). -/
namespace Haruspex.ToolBatches
set_option autoImplicit false

structure ResolvedToolCall where
  id : String
  name : String
  deriving DecidableEq

/-! ## Batches -/

def parallelSafeTools : List String :=
  ["web_search", "fetch_url", "research_url", "image_search", "fs_list_dir", "fs_read_text",
    "fs_read_pdf", "fs_read_docx", "fs_read_xlsx", "load_skill", "read_skill_file", "delegate"]

def parallelSafe (call : ResolvedToolCall) : Bool := call.name ∈ parallelSafeTools

/-- The batches that are closed, and the one read-only calls still join. -/
structure Plan where
  closed : List (List ResolvedToolCall)
  joining : Option (List ResolvedToolCall)

def Plan.batches (plan : Plan) : List (List ResolvedToolCall) :=
  plan.closed ++ plan.joining.toList

def Plan.add (plan : Plan) (call : ResolvedToolCall) : Plan :=
  if parallelSafe call then ⟨plan.closed, some (plan.joining.getD [] ++ [call])⟩
  else ⟨plan.batches ++ [[call]], none⟩

def planToolBatches (calls : List ResolvedToolCall) : List (List ResolvedToolCall) :=
  (calls.foldl Plan.add ⟨[], none⟩).batches

/-! ## Caps -/

/-- What an object literal has from its prototype. -/
def inheritedNames : List String :=
  ["constructor", "__defineGetter__", "__defineSetter__", "hasOwnProperty", "__lookupGetter__",
    "__lookupSetter__", "isPrototypeOf", "propertyIsEnumerable", "toString", "valueOf", "__proto__",
    "toLocaleString"]

inductive CapLookup where
  | undefined
  | number (n : ℕ)
  | inherited

/-- `PER_TOOL_CAP[name]`, a plain object with one entry. -/
def perToolCap (name : String) : CapLookup :=
  if name = "web_search" then .number 2
  else if name ∈ inheritedNames then .inherited
  else .undefined

/-- `active < (PER_TOOL_CAP[name] ?? limit)`. A function or an object is compared as NaN. -/
def underCap (limit active : ℕ) (name : String) : Bool :=
  match perToolCap name with
  | .undefined => active < limit
  | .number n => active < n
  | .inherited => false

/-! ## One batch -/

structure Batch (T : Type) where
  /-- `results` and `done`. -/
  results : List (Option T)
  waiting : List ℕ
  activeByTool : String → ℕ
  running : ℕ
  nextToDeliver : ℕ
  failed : Bool
  /-- The promise of the whole batch is fulfilled. -/
  resolved : Bool
  /-- Calls that are started and wait for their tick. -/
  deferred : List ℕ
  /-- Calls whose `run` has been called and has not settled. -/
  active : List ℕ
  /-- What `onResult` has been given. -/
  delivered : List (ResolvedToolCall × T)

variable {T : Type}

/-- The calls in flight. -/
def Batch.inFlight (b : Batch T) : List ℕ := b.deferred ++ b.active

section Run

variable (calls : List ResolvedToolCall) (limit : ℕ)

def nameAt (i : ℕ) : String := (calls[i]?.map ResolvedToolCall.name).getD ""

def Batch.canStart (b : Batch T) (i : ℕ) : Bool :=
  underCap limit (b.activeByTool (nameAt calls i)) (nameAt calls i)

def setActive (activeByTool : String → ℕ) (name : String) (n : ℕ) : String → ℕ :=
  fun other => if other = name then n else activeByTool other

def Batch.start (b : Batch T) (i : ℕ) : Batch T :=
  let name := nameAt calls i
  { b with
    waiting := b.waiting.erase i
    running := b.running + 1
    activeByTool := setActive b.activeByTool name (b.activeByTool name + 1)
    deferred := b.deferred ++ [i] }

/-- The loop of `startMore`, which takes one waiting call each time round. -/
def startLoop : ℕ → Batch T → Batch T
  | 0, b => b
  | fuel + 1, b =>
    if b.failed = false ∧ b.running < limit then
      match b.waiting.find? (b.canStart calls limit) with
      | none => b
      | some i => startLoop fuel (b.start calls i)
    else b

def startMore (b : Batch T) : Batch T := startLoop calls limit b.waiting.length b

-- Whether `onResult` throws on a result.
variable (throws : ResolvedToolCall → T → Bool)

/-- The loop of `deliver`. -/
def deliverLoop : ℕ → Batch T → Batch T
  | 0, b => b
  | fuel + 1, b =>
    match calls[b.nextToDeliver]?, b.results[b.nextToDeliver]? with
    | some call, some (some result) =>
      let given := { b with delivered := b.delivered ++ [(call, result)] }
      if throws call result then { given with failed := true }
      else deliverLoop fuel { given with nextToDeliver := b.nextToDeliver + 1 }
    | _, _ => b

def deliver (b : Batch T) : Batch T :=
  let b := deliverLoop calls throws calls.length b
  if b.failed then b
  else if b.nextToDeliver = calls.length then { b with resolved := true }
  else b

/-- The batch at the start of `runToolBatch`. -/
def fresh : Batch T :=
  { results := List.replicate calls.length none
    waiting := List.range calls.length
    activeByTool := fun _ => 0
    running := 0
    nextToDeliver := 0
    failed := false
    resolved := false
    deferred := []
    active := []
    delivered := [] }

def runToolBatch : Batch T :=
  if calls.length = 0 then { fresh calls with resolved := true }
  else startMore calls limit (fresh calls)

inductive Outcome (T : Type) where
  | value (result : T)
  | failure

/-- The tick of a call that is started: its `run` is called. -/
def Batch.tick (b : Batch T) (i : ℕ) : Batch T :=
  { b with deferred := b.deferred.erase i, active := b.active ++ [i] }

/-- What is recorded of a value while nothing has failed. -/
def Batch.record (b : Batch T) (i : ℕ) (result : T) : Batch T :=
  let name := nameAt calls i
  { b with
    results := b.results.set i (some result)
    running := b.running - 1
    activeByTool := setActive b.activeByTool name (b.activeByTool name - 1) }

/-- A call in flight settles. -/
def settle (b : Batch T) (i : ℕ) (outcome : Outcome T) : Batch T :=
  let b := { b with active := b.active.erase i }
  match outcome with
  | .failure => { b with failed := true }
  | .value result =>
    if b.failed then b
    else startMore calls limit (deliver calls throws (b.record calls i result))

/-- The calls of a batch tick and settle in any order, each with its own outcome. -/
inductive Step (outcome : ℕ → Outcome T) : Batch T → Batch T → Prop
  | tick (b : Batch T) (i : ℕ) (h : i ∈ b.deferred) : Step outcome b (b.tick i)
  | settle (b : Batch T) (i : ℕ) (h : i ∈ b.active) :
      Step outcome b (settle calls limit throws b i (outcome i))

end Run

/-! ## The loop over the batches -/

structure Loop (T : Type) where
  /-- What the batches before this one have given to `onResult`. -/
  handed : List (ResolvedToolCall × T)
  calls : List ResolvedToolCall
  batch : Batch T
  pending : List (List ResolvedToolCall)

/-- Before the first batch. -/
def Loop.start (calls : List ResolvedToolCall) (limit : ℕ) : Loop T :=
  ⟨[], [], runToolBatch [] limit, planToolBatches calls⟩

/-- What has been given to `onResult`. -/
def Loop.delivered (s : Loop T) : List (ResolvedToolCall × T) := s.handed ++ s.batch.delivered

/-- A call of the batch under way ticks or settles, or the next batch starts. The outcomes are those
of all calls of the response, by their place. -/
inductive Loop.Step (limit : ℕ) (throws : ResolvedToolCall → T → Bool) (outcome : ℕ → Outcome T) :
    Loop T → Loop T → Prop
  | call (s : Loop T) (b : Batch T)
      (h : ToolBatches.Step s.calls limit throws (fun i => outcome (s.handed.length + i)) s.batch b) :
      Loop.Step limit throws outcome s { s with batch := b }
  | next (s : Loop T) (calls : List ResolvedToolCall) (pending : List (List ResolvedToolCall))
      (hdone : s.batch.resolved = true) (hnext : s.pending = calls :: pending) :
      Loop.Step limit throws outcome s ⟨s.delivered, calls, runToolBatch calls limit, pending⟩

def Loop.Reachable (calls : List ResolvedToolCall) (limit : ℕ) (throws : ResolvedToolCall → T → Bool)
    (outcome : ℕ → Outcome T) : Loop T → Prop :=
  Relation.ReflTransGen (Loop.Step limit throws outcome) (Loop.start calls limit)

/-! ## The batches of a list of calls -/

/-- A batch of read-only calls, or of one call. -/
def Overlaps (batch : List ResolvedToolCall) : Prop :=
  batch ≠ [] ∧ ((∀ call ∈ batch, parallelSafe call = true) ∨ batch.length = 1)

theorem parallelSafe_not_inherited {call : ResolvedToolCall} (h : parallelSafe call = true) :
    call.name ∉ inheritedNames := by
  have hall : ∀ name ∈ parallelSafeTools, name ∉ inheritedNames := by decide
  exact hall call.name (of_decide_eq_true h)

/-- What the plan is after the calls it has seen. -/
structure Plan.Splits (plan : Plan) (calls : List ResolvedToolCall) : Prop where
  flatten : plan.batches.flatten = calls
  overlaps : ∀ batch ∈ plan.batches, Overlaps batch
  joining : ∀ batch, plan.joining = some batch → ∀ call ∈ batch, parallelSafe call = true

theorem Plan.Splits.add {plan : Plan} {calls : List ResolvedToolCall} (h : plan.Splits calls)
    (call : ResolvedToolCall) : (plan.add call).Splits (calls ++ [call]) := by
  obtain ⟨closed, joining⟩ := plan
  have hflatten := h.flatten
  have hoverlaps := h.overlaps
  simp only [Plan.batches] at hflatten hoverlaps
  by_cases hsafe : parallelSafe call = true
  · have hjoined : ∀ c ∈ joining.getD [] ++ [call], parallelSafe c = true := by
      intro c hc
      rcases List.mem_append.mp hc with hc | hc
      · cases joining with
        | none => cases hc
        | some batch => exact h.joining batch rfl c hc
      · rw [List.mem_singleton.mp hc]
        exact hsafe
    rw [Plan.add, if_pos hsafe]
    refine ⟨?_, ?_, ?_⟩
    · rw [← hflatten]
      cases joining <;> simp [Plan.batches]
    · intro batch hbatch
      simp only [Plan.batches, Option.toList_some, List.mem_append, List.mem_singleton] at hbatch
      rcases hbatch with hbatch | rfl
      · exact hoverlaps batch (List.mem_append_left _ hbatch)
      · exact ⟨by simp, Or.inl hjoined⟩
    · intro batch hbatch
      cases hbatch
      exact hjoined
  · rw [Plan.add, if_neg hsafe]
    refine ⟨?_, ?_, ?_⟩
    · rw [← hflatten]
      simp [Plan.batches]
    · intro batch hbatch
      simp only [Plan.batches, Option.toList_none, List.append_nil, List.mem_append,
        List.mem_singleton] at hbatch
      rcases hbatch with hbatch | rfl
      · exact hoverlaps batch (by simpa using hbatch)
      · exact ⟨by simp, Or.inr rfl⟩
    · intro batch hbatch
      cases hbatch

theorem planToolBatches_splits (calls : List ResolvedToolCall) :
    (calls.foldl Plan.add ⟨[], none⟩).Splits calls := by
  induction calls using List.reverseRecOn with
  | nil => exact ⟨rfl, fun _ h => absurd h List.not_mem_nil, fun _ h => by cases h⟩
  | append_singleton calls call ih =>
    rw [List.foldl_append]
    exact ih.add call

theorem planToolBatches_flatten (calls : List ResolvedToolCall) :
    (planToolBatches calls).flatten = calls :=
  (planToolBatches_splits calls).flatten

theorem planToolBatches_overlaps {calls batch : List ResolvedToolCall}
    (h : batch ∈ planToolBatches calls) : Overlaps batch :=
  (planToolBatches_splits calls).overlaps batch h

end Haruspex.ToolBatches
