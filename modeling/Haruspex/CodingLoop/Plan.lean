import Haruspex.JavaScript.Json
import Haruspex.JavaScript.Lines

/-! The state of the autonomous-coding loop (`autonomous-coding/loopState.ts`): its checklist, and what the
loop does to it. -/
namespace Haruspex.CodingLoop
open JavaScript
set_option autoImplicit false

abbrev Text := List Char

/-! ## The plan -/

inductive TaskStatus where
  | todo
  | done
  | blocked
  deriving DecidableEq

structure TaskItem where
  id : Text
  title : Text
  description : Text
  status : TaskStatus
  attempts : ℕ
  phase : Option Text
  repair : Bool
  deriving DecidableEq

inductive PhaseVerifyStatus where
  | pending
  | passed
  | blocked
  deriving DecidableEq

structure PhaseInfo where
  id : Text
  title : Text
  verify : PhaseVerifyStatus
  repairs : ℕ
  builds : ℕ
  deriving DecidableEq

structure LoopPlan where
  phases : List PhaseInfo
  items : List TaskItem
  deriving DecidableEq

def maxPhaseRepairCycles : ℕ := 5

def maxPhaseBuildAttempts : ℕ := 3

/-- `String(n)`. -/
def decimal (n : ℕ) : Text := Nat.toDigits 10 n

/-- `parseInt(digits, 10)`. -/
def parseInt (digits : Text) : ℕ := Nat.ofDigitChars 10 digits 0

/-- `String(n).padStart(2, '0')`. -/
def positionId (n : ℕ) : Text := (decimal n).leftpad 2 '0'

/-! ## Plans that are built -/

def wholePlan : Text := "Whole plan".toList

/-- `title.replace(/\s+/g, ' ').trim()`. -/
def tidyTitle (title : String) : Text := Chars.trim (Chars.collapse false title.toList)

/-- The phases so far, with the key each is found by. -/
abbrev KeyedPhases := List (Text × PhaseInfo)

/-- The id of the phase of a title, which is new if no phase has it yet. -/
def phaseFor (lower : Text → Text) (phases : KeyedPhases) (title : String) : KeyedPhases × Text :=
  let key := tidyTitle title
  match phases.find? (fun known => known.1 = lower key) with
  | some known => (phases, known.2.id)
  | none =>
    let id := positionId (phases.length + 1)
    (phases ++ [(lower key, ⟨id, key, .pending, 0, 0⟩)], id)

/-- `typeof entry[key] === 'string' ? entry[key] : ''`. -/
def stringField (entry : Json) (key : String) : String :=
  match entry.field? key with
  | some (.string value) => value
  | _ => ""

def addEntry (lower : Text → Text) (plan : KeyedPhases × List TaskItem) (entry : Json) :
    KeyedPhases × List TaskItem :=
  let title := tidyTitle (stringField entry "title")
  if title = [] then plan
  else
    let description := Chars.trim (stringField entry "description").toList
    let given := stringField entry "phase"
    let phaseTitle := if Chars.trim given.toList = [] then "Whole plan" else given
    let (phases, phase) := phaseFor lower plan.1 phaseTitle
    (phases, plan.2 ++ [⟨positionId (plan.2.length + 1), title, description, .todo, 0, some phase, false⟩])

/-- A plan from a submitted task list; `lower` is `toLowerCase`. -/
def normalizeTaskListPlan (lower : Text → Text) (raw : Json) : LoopPlan :=
  match raw with
  | .array entries =>
    let (phases, items) := entries.foldl (addEntry lower) ([], [])
    ⟨phases.map Prod.snd, items⟩
  | _ => ⟨[], []⟩

/-- A phaseless plan in a single phase. -/
def ensurePhased (plan : LoopPlan) : LoopPlan :=
  if plan.phases ≠ [] ∨ plan.items = [] then plan
  else
    ⟨[⟨positionId 1, wholePlan, .pending, 0, 0⟩],
      plan.items.map (fun item => { item with phase := some (positionId 1) })⟩

/-! ## What the loop does to it -/

def nextActionable (items : List TaskItem) : Option TaskItem := items.find? (fun i => i.status = .todo)

def markPhaseItemsDone (plan : LoopPlan) (phaseId : Text) : LoopPlan :=
  { plan with
    items := plan.items.map (fun i =>
      if i.phase = some phaseId ∧ i.status = .todo then { i with status := .done } else i) }

def markDone (items : List TaskItem) (id : Text) : List TaskItem :=
  items.map (fun i => if i.id = id then { i with status := .done } else i)

/-- One failed attempt at an item. -/
def TaskItem.fail (maxAttempts : ℕ) (i : TaskItem) : TaskItem :=
  { i with
    attempts := i.attempts + 1
    status := if maxAttempts ≤ i.attempts + 1 then .blocked else .todo }

def recordFailure (items : List TaskItem) (id : Text) (maxAttempts : ℕ) : List TaskItem :=
  items.map (fun i => if i.id = id then i.fail maxAttempts else i)

def members (plan : LoopPlan) (phaseId : Text) : List TaskItem :=
  plan.items.filter (fun i => i.phase = some phaseId)

def phaseNeedingVerify (plan : LoopPlan) : Option PhaseInfo :=
  plan.phases.find? (fun phase => phase.verify = .pending ∧ members plan phase.id ≠ [] ∧
    ∀ i ∈ members plan phase.id, i.status ≠ .todo)

/-- A change to every phase of an id. -/
def LoopPlan.withPhase (plan : LoopPlan) (phaseId : Text) (change : PhaseInfo → PhaseInfo) : LoopPlan :=
  { plan with phases := plan.phases.map (fun p => if p.id = phaseId then change p else p) }

def findPhase (plan : LoopPlan) (phaseId : Text) : Option PhaseInfo :=
  plan.phases.find? (fun p => p.id = phaseId)

def setPhaseVerify (plan : LoopPlan) (phaseId : Text) (verify : PhaseVerifyStatus) : LoopPlan :=
  plan.withPhase phaseId (fun p => { p with verify := verify })

/-- The build count after one more turn. -/
def nextBuild (plan : LoopPlan) (phaseId : Text) : ℕ :=
  ((findPhase plan phaseId).map PhaseInfo.builds).getD 0 + 1

def buildsExhausted (plan : LoopPlan) (phaseId : Text) : Bool :=
  maxPhaseBuildAttempts ≤ nextBuild plan phaseId

def recordPhaseBuildFailure (plan : LoopPlan) (phaseId : Text) : LoopPlan :=
  let counted := plan.withPhase phaseId (fun p =>
    { p with
      builds := nextBuild plan phaseId
      verify := if buildsExhausted plan phaseId then .blocked else p.verify })
  if buildsExhausted plan phaseId then
    { counted with
      items := plan.items.map (fun i =>
        if i.phase = some phaseId ∧ i.status = .todo then
          { i with status := .blocked, attempts := maxPhaseBuildAttempts }
        else i) }
  else counted

def recordPhaseBuild (plan : LoopPlan) (phaseId : Text) : LoopPlan :=
  plan.withPhase phaseId (fun p => { p with builds := p.builds + 1 })

/-! ## Repair cycles -/

/-- `t.slice(0, n)` in UTF-16 units. -/
def firstUnits (t : Text) (n : ℕ) : Text := ofUnits ((toUnits t).take n)

/-- `t.slice(-n)` in UTF-16 units. -/
def lastUnits (t : Text) (n : ℕ) : Text := ofUnits ((toUnits t).drop ((toUnits t).length - n))

def clipNote (note : Text) (maxChars : ℕ := 1500) : Text :=
  let t := Chars.trim note
  if (toUnits t).length ≤ maxChars then t
  else firstUnits t maxChars ++ '\n' :: "[… note truncated for the prompt tail]".toList

def previousRepairSection (note : Option Text) : Text :=
  let t := Chars.trim (note.getD [])
  if t = [] then []
  else
    let clipped :=
      if (toUnits t).length ≤ 3000 then t
      else "[… start of note omitted]".toList ++ '\n' :: lastUnits t 3000
    ("The previous repair cycle failed. Don't repeat what it tried; if its note names " ++
      "the fix, do that.\n\nPrevious repair note:\n").toList ++ clipped ++ ['\n', '\n']

def repairDescription (phaseId failureOutput : Text) (previousRepairNote : Option Text) : Text :=
  "Phase ".toList ++ phaseId ++
    (" verification failed. Diagnose from the output below, fix the " ++
      "cause, and make the phase verification pass. Verification re-runs after this " ++
      "item regardless of the outcome you report. If the verification COMMAND itself " ++
      "is broken (shell errors, wrong path), fix it under \"## Verification command\" in " ++
      "DECISIONS-coding.md — the runner re-reads it before every check.\n\n" ++
      "The phase plan is the specification; tests written during this run are not. If a " ++
      "failing test asserts something the plan doesn't require, or two tests demand " ++
      "opposite behaviour, change the tests to match the plan instead of bending the code.\n\n").toList ++
    previousRepairSection previousRepairNote ++ "Verification output:\n".toList ++
    clipNote failureOutput 3000

/-- `Math.max(m, parseInt(i.id, 10) || 0)` over the items. -/
def maxId (items : List TaskItem) : ℕ := items.foldl (fun m i => max m (parseInt i.id)) 0

def nextCycle (plan : LoopPlan) (phaseId : Text) : ℕ :=
  ((findPhase plan phaseId).map PhaseInfo.repairs).getD 0 + 1

def repairItem (plan : LoopPlan) (phaseId failureOutput : Text) (previousRepairNote : Option Text) :
    TaskItem :=
  ⟨positionId (maxId plan.items + 1),
    "Repair phase ".toList ++ phaseId ++ " (cycle ".toList ++ decimal (nextCycle plan phaseId) ++ "/".toList ++
      decimal maxPhaseRepairCycles ++ ")".toList,
    repairDescription phaseId failureOutput previousRepairNote, .todo, 0, some phaseId, true⟩

/-- An item put after the last one of its phase, or first. -/
def insertAfterPhase (phaseId : Text) (item : TaskItem) (items : List TaskItem) : List TaskItem :=
  let after := items.reverse.takeWhile (fun i => i.phase ≠ some phaseId)
  if after.length = items.length then item :: items
  else items.take (items.length - after.length) ++ item :: after.reverse

def beginRepairCycle (plan : LoopPlan) (phaseId failureOutput : Text) (previousRepairNote : Option Text) :
    LoopPlan :=
  let counted := plan.withPhase phaseId (fun p => { p with repairs := nextCycle plan phaseId })
  { counted with
    items := insertAfterPhase phaseId (repairItem plan phaseId failureOutput previousRepairNote) plan.items }

end Haruspex.CodingLoop
