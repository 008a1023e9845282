import Haruspex.CodingLoop.Plan

/-! The checklist as a file: `renderTodoPlan` and `parseTodoPlan` (`autonomous-coding/loopState.ts`). -/
namespace Haruspex.CodingLoop
open JavaScript (isBlank)
open JavaScript.Chars
set_option autoImplicit false

/-! ## Rendering -/

def statusMark : TaskStatus → Char
  | .todo => ' '
  | .done => 'x'
  | .blocked => '!'

def verifyWord : PhaseVerifyStatus → Text
  | .pending => ['p', 'e', 'n', 'd', 'i', 'n', 'g']
  | .passed => ['p', 'a', 's', 's', 'e', 'd']
  | .blocked => ['b', 'l', 'o', 'c', 'k', 'e', 'd']

/-- `" (attempts: n, repair)"`. -/
def itemSuffix (attempts : ℕ) (repair : Bool) : Text :=
  [' ', '(', 'a', 't', 't', 'e', 'm', 'p', 't', 's', ':', ' '] ++ decimal attempts ++
    (if repair then [',', ' ', 'r', 'e', 'p', 'a', 'i', 'r'] else []) ++ [')']

def itemLine (item : TaskItem) : Text :=
  ['-', ' ', '[', statusMark item.status, ']', ' '] ++ item.id ++ ['.', ' '] ++ item.title ++
    itemSuffix item.attempts item.repair

/-- The lines of a description that are not blank, without trailing blanks. -/
def textLines (description : Text) : List Text :=
  ((description.splitOn '\n').filter (fun line => trim line ≠ [])).map trimEnd

def itemLines (item : TaskItem) : List Text :=
  itemLine item :: (textLines item.description).map (fun line => ' ' :: ' ' :: line)

/-- `" (verify: pending, repairs: n, builds: n)"`. -/
def phaseSuffix (phase : PhaseInfo) : Text :=
  [' ', '(', 'v', 'e', 'r', 'i', 'f', 'y', ':', ' '] ++ verifyWord phase.verify ++
    [',', ' ', 'r', 'e', 'p', 'a', 'i', 'r', 's', ':', ' '] ++ decimal phase.repairs ++
    [',', ' ', 'b', 'u', 'i', 'l', 'd', 's', ':', ' '] ++ decimal phase.builds ++ [')']

def phaseLine (phase : PhaseInfo) : Text :=
  ['#', '#', ' ', 'P', 'h', 'a', 's', 'e', ' '] ++ phase.id ++ [' ', '—', ' '] ++ phase.title ++
    phaseSuffix phase

def headerLines : List Text :=
  ["# Coding TODO".toList, [],
    "Owned by the autonomous-coding run — do not edit while a run is active.".toList,
    "Marks: [ ] todo · [x] done · [!] blocked.".toList, []]

/-- Whether an item stands under no heading. -/
def unheaded (plan : LoopPlan) (item : TaskItem) : Bool :=
  match item.phase with
  | none => true
  | some id => id = [] ∨ id ∉ plan.phases.map PhaseInfo.id

def bodyLines (plan : LoopPlan) : List Text :=
  if plan.phases = [] then plan.items.flatMap itemLines
  else
    (plan.items.filter (unheaded plan)).flatMap itemLines ++
      plan.phases.flatMap (fun phase =>
        [] :: phaseLine phase :: [] :: (members plan phase.id).flatMap itemLines)

def renderTodoPlan (plan : LoopPlan) : Text :=
  ['\n'].intercalate (headerLines ++ bodyLines plan) ++ ['\n']

/-! ## Parsing -/

def markStatus : Char → Option TaskStatus
  | ' ' => some .todo
  | 'x' => some .done
  | '!' => some .blocked
  | _ => none

/-- Some text after a word it starts with. -/
def after (word : Text) (text : Text) : Option Text :=
  if word <+: text then some (text.drop word.length) else none

/-- `(\d+)`, with what follows. -/
def digits (text : Text) : Option (ℕ × Text) :=
  let taken := text.takeWhile Char.isDigit
  if taken = [] then none else some (parseInt taken, text.dropWhile Char.isDigit)

/-- `(\d{2,})`, with what follows. -/
def twoDigits (text : Text) : Option (Text × Text) :=
  let taken := text.takeWhile Char.isDigit
  if taken.length < 2 then none else some (taken, text.dropWhile Char.isDigit)

/-- `(?: \(attempts: (\d+)(, repair)?\))?$`. -/
def itemSuffix? (text : Text) : Option (ℕ × Bool) :=
  if text = [] then some (0, false)
  else do
    let (attempts, rest) ← digits (← after [' ', '(', 'a', 't', 't', 'e', 'm', 'p', 't', 's', ':', ' '] text)
    if rest = [')'] then some (attempts, false)
    else if rest = [',', ' ', 'r', 'e', 'p', 'a', 'i', 'r', ')'] then some (attempts, true)
    else none

/-- `ITEM_RE`: an item, its phase not known yet. -/
def itemLine? (line : Text) : Option TaskItem :=
  match line with
  | '-' :: ' ' :: '[' :: mark :: ']' :: ' ' :: rest => do
    let status ← markStatus mark
    let (id, rest) ← twoDigits rest
    let (title, attempts, repair) ← lazily itemSuffix? [] (← after ['.', ' '] rest)
    some ⟨id, trim title, [], status, attempts, none, repair⟩
  | _ => none

def verifyWord? (text : Text) : Option (PhaseVerifyStatus × Text) :=
  [PhaseVerifyStatus.pending, .passed, .blocked].findSome? (fun verify =>
    (after (verifyWord verify) text).map (fun rest => (verify, rest)))

/-- ` \(verify: (pending|passed|blocked), repairs: (\d+)(?:, builds: (\d+))?\)$`. -/
def phaseSuffix? (text : Text) : Option (PhaseVerifyStatus × ℕ × ℕ) := do
  let (verify, rest) ← verifyWord? (← after [' ', '(', 'v', 'e', 'r', 'i', 'f', 'y', ':', ' '] text)
  let (repairs, rest) ← digits (← after [',', ' ', 'r', 'e', 'p', 'a', 'i', 'r', 's', ':', ' '] rest)
  if rest = [')'] then some (verify, repairs, 0)
  else
    let (builds, rest) ← digits (← after [',', ' ', 'b', 'u', 'i', 'l', 'd', 's', ':', ' '] rest)
    if rest = [')'] then some (verify, repairs, builds) else none

/-- `PHASE_RE`. -/
def phaseLine? (line : Text) : Option PhaseInfo := do
  let (id, rest) ← twoDigits (← after ['#', '#', ' ', 'P', 'h', 'a', 's', 'e', ' '] line)
  let (title, verify, repairs, builds) ← lazily phaseSuffix? [] (← after [' ', '—', ' '] rest)
  some ⟨id, trim title, verify, repairs, builds⟩

/-- Where the parser stands: the item it may still add lines to is kept apart from those before it. -/
structure Parsing where
  phases : List PhaseInfo
  items : List TaskItem
  current : Option TaskItem
  phase : Option Text
  deriving DecidableEq

namespace Parsing

/-- All items so far. -/
def allItems (s : Parsing) : List TaskItem := s.items ++ s.current.toList

/-- The current item takes no more lines. -/
def close (s : Parsing) : Parsing := { s with items := s.allItems, current := none }

/-- `/^ {2}\S/` -/
def isIndented : Text → Bool
  | ' ' :: ' ' :: c :: _ => !isBlank c
  | _ => false

def addLine (line : Text) (item : TaskItem) : TaskItem :=
  { item with
    description := (if item.description = [] then [] else item.description ++ ['\n']) ++
      trimEnd (line.drop 2) }

def step (s : Parsing) (line : Text) : Parsing :=
  match phaseLine? line with
  | some phase => { s.close with phases := s.phases ++ [phase], phase := some phase.id }
  | none =>
    match itemLine? line with
    | some item => { s.close with current := some { item with phase := s.phase } }
    | none =>
      match s.current with
      | some item =>
        if isIndented line then { s with current := some (addLine line item) }
        else if trim line = [] then s.close
        else s
      | none => s

end Parsing

def parseTodoPlan (text : Text) : Option LoopPlan :=
  let s := (text.splitOn '\n').foldl Parsing.step ⟨[], [], none, none⟩
  if s.allItems = [] then none else some ⟨s.phases, s.allItems⟩

end Haruspex.CodingLoop
