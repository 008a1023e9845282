import Mathlib.Data.Int.Notation
import Haruspex.JavaScript.Json
import Mathlib.Data.List.Sort
import Mathlib.Data.Rat.Floor

/-! Head and tail truncation (`truncateCapturedOutput`, `truncate.ts`). -/
namespace Haruspex.ContextBudget
open JavaScript
set_option autoImplicit false

structure TruncationResult where
  text : String
  truncated : Bool
  originalBytes : ℕ

def shellHint : String :=
  "Ask the user to narrow the command " ++ "(e.g. `| tail -200`, `--since '1 hour ago'`, " ++
    "`| grep <pattern>`) " ++ "if you need the dropped region"

def markerBytes (n : ℤ) : String :=
  if n < 1024 then toString n ++ " B"
  else if n < 1024 * 1024 then toFixed 1 n.toNat 1024 ++ " KiB"
  else toFixed 2 n.toNat (1024 * 1024) ++ " MiB"

/-- What stands in place of the dropped middle, without its blank lines. -/
def markerText (totalBytes : ℕ) (droppedBytes : ℤ) (hint : String) : String :=
  "[... middle truncated — " ++ markerBytes totalBytes ++ " total, " ++ markerBytes droppedBytes ++
    " dropped from the middle. " ++ hint ++ " ...]"

/-- The head, ended at its last newline when one is close. -/
def snapHead (snapWindow : ℕ) (head : List Char) : List Char :=
  match head.reverse.dropWhile (· ≠ '\n') with
  | [] => head
  | _ :: before =>
    if (toUnits (head.reverse.takeWhile (· ≠ '\n'))).length + 1 ≤ snapWindow then before.reverse
    else head

/-- The tail, begun after its first newline when one is close. -/
def snapTail (snapWindow : ℕ) (tail : List Char) : List Char :=
  match tail.dropWhile (· ≠ '\n') with
  | [] => tail
  | _ :: after =>
    if (toUnits (tail.takeWhile (· ≠ '\n'))).length ≤ snapWindow then after else tail

def truncateCapturedOutput (text : String) (maxBytes : ℕ) (hint : String := shellHint) :
    TruncationResult :=
  let totalBytes := byteLength text
  if maxBytes = 0 then ⟨text, false, totalBytes⟩
  else if totalBytes ≤ maxBytes then ⟨text, false, totalBytes⟩
  else
    let halfBudget := maxBytes / 2
    let snapWindow := halfBudget / 4
    let head := snapHead snapWindow (decodeFront halfBudget text.toList)
    let tail := snapTail snapWindow (decodeBack (totalBytes - halfBudget) text.toList)
    let droppedBytes := (totalBytes : ℤ) - utf8Bytes head - utf8Bytes tail
    ⟨String.ofList head ++ "\n\n" ++ markerText totalBytes droppedBytes hint ++ "\n\n" ++
      String.ofList tail, true, totalBytes⟩

/-- A text within the limit is left alone. -/
theorem truncate_short {text hint : String} {maxBytes : ℕ}
    (h : (truncateCapturedOutput text maxBytes hint).truncated = false) :
    (truncateCapturedOutput text maxBytes hint).text = text := by
  by_cases hmax : maxBytes = 0
  · rw [truncateCapturedOutput, if_pos hmax]
  · by_cases hlong : byteLength text ≤ maxBytes
    · rw [truncateCapturedOutput, if_neg hmax, if_pos hlong]
    · rw [truncateCapturedOutput, if_neg hmax, if_neg hlong] at h
      cases h

/-- A text over the limit keeps a head and a tail, with the marker between them. -/
theorem truncate_long {text : String} {maxBytes : ℕ} (hint : String) (hmax : maxBytes ≠ 0)
    (hlong : maxBytes < byteLength text) :
    ∃ dropped, truncateCapturedOutput text maxBytes hint =
      ⟨String.ofList (snapHead (maxBytes / 2 / 4) (decodeFront (maxBytes / 2) text.toList)) ++
        "\n\n" ++ markerText (byteLength text) dropped hint ++ "\n\n" ++
        String.ofList (snapTail (maxBytes / 2 / 4)
          (decodeBack (byteLength text - maxBytes / 2) text.toList)),
        true, byteLength text⟩ := by
  have hno : ¬ byteLength text ≤ maxBytes := by omega
  rw [truncateCapturedOutput, if_neg hmax, if_neg hno]
  exact ⟨_, rfl⟩

end Haruspex.ContextBudget

/-! The pre-send context guard (`contextBudget.ts`, with the message types of `api.ts` and
`holdsSkillContent` of `skills/content.ts`): it shortens a message list until an estimate of its
tokens fits the window. -/
namespace Haruspex.ContextBudget
open JavaScript
set_option autoImplicit false

/-! ## Messages -/

inductive Role where
  | system
  | user
  | assistant
  | tool
  deriving DecidableEq

structure ToolCall where
  id : String
  name : String
  arguments : String
  deriving DecidableEq

def ToolCall.toJson (call : ToolCall) : Json :=
  .object [("id", .string call.id), ("type", .string "function"),
    ("function", .object [("name", .string call.name), ("arguments", .string call.arguments)])]

structure ToolDefinition where
  name : String
  description : String
  parameters : Json

def ToolDefinition.toJson (tool : ToolDefinition) : Json :=
  .object [("type", .string "function"),
    ("function", .object [("name", .string tool.name), ("description", .string tool.description),
      ("parameters", tool.parameters)])]

inductive MessageContentPart where
  | text (text : String)
  | imageUrl (url : String)
  deriving DecidableEq

inductive MessageContent where
  | text (text : String)
  | parts (parts : List MessageContentPart)
  deriving DecidableEq

structure ChatMessage where
  role : Role
  content : MessageContent
  toolCalls : Option (List ToolCall)
  toolCallId : Option String
  deriving DecidableEq

def messageText : MessageContent → String
  | .text text => text
  | .parts parts => "\n".intercalate (parts.filterMap (fun part => match part with
    | .text text => some text
    | .imageUrl _ => none))

def holdsSkillContent (text : String) : Bool := includes text "<skill_content name=\""

namespace ChatMessage

/-- The id a tool result names: an empty one counts as none. -/
def callId? (m : ChatMessage) : Option String := m.toolCallId.filter (· ≠ "")

def calls (m : ChatMessage) : List ToolCall := m.toolCalls.getD []

end ChatMessage

/-! ## Estimates -/

def perMessageOverheadTokens : ℕ := 4

def preserveRecentToolMessages : ℕ := 3

def protectedTurns : ℕ := 4

def oversizedMessageMaxTokens : ℕ := 16000

def toolCutHint : String :=
  "Call the tool again for a narrower part " ++ "(a range, a filter, a page) " ++
    "if you need the dropped region"

def cutHint : Role → String
  | .user => "Ask the user for the part you need " ++ "if it was in the dropped region"
  | .assistant => "This is your own earlier reply, " ++ "cut to fit the context"
  | _ => toolCutHint

def droppedTurnsNote : String := "[Older messages were dropped to fit the context window.]"

/-- `Math.ceil(byteLength(text) / 3.5)`. -/
def estimateTokens (text : String) : ℕ := if text = "" then 0 else (2 * byteLength text + 6) / 7

def messageTokens (m : ChatMessage) : ℕ :=
  estimateTokens (messageText m.content) + perMessageOverheadTokens +
    match m.toolCalls with
    | some calls => estimateTokens (Json.stringify (.array (calls.map ToolCall.toJson)))
    | none => 0

def toolsTokens : List ToolDefinition → ℕ
  | [] => 0
  | tools => estimateTokens (Json.stringify (.array (tools.map ToolDefinition.toJson)))

def estimateMessagesTokens (messages : List ChatMessage) (tools : List ToolDefinition) : ℕ :=
  (messages.map messageTokens).sum + toolsTokens tools

/-! ## Stubbing old tool results -/

/-- The indices of the messages that meet a condition. -/
def indicesOf (p : ChatMessage → Bool) (messages : List ChatMessage) : List ℕ :=
  (List.range messages.length).filter (fun i => messages[i]?.any p)

/-- The argument a stub shows: the first of these fields that is a string. -/
def shownArgument (arguments : String) : String :=
  let shown := ["path", "relPath", "pattern", "query", "command", "url"].findSome? (fun key =>
    match (Json.parse arguments).bind (fun args => args.field? key) with
    | some (.string value) => some value
    | _ => none)
  sliceTo (shown.getD "") 120

def describeCall (call : ToolCall) : String :=
  let arg := shownArgument call.arguments
  if arg = "" then call.name else call.name ++ "(" ++ arg ++ ")"

def describeToolCall (messages : List ChatMessage) (toolIdx : ℕ) : String :=
  match messages[toolIdx]?.bind ChatMessage.callId? with
  | none => ""
  | some id =>
    match (messages.take toolIdx).reverse.findSome? (fun m => m.calls.find? (fun c => c.id = id)) with
    | none => ""
    | some call => describeCall call

def stubEnd : String :=
  " is no longer in scope — " ++ "it was DROPPED TO SAVE SPACE, " ++
    "which says nothing about what it contained. " ++ "Call the tool again if you still need it.]"

def stubFor (messages : List ChatMessage) (idx : ℕ) (text : String) : String :=
  let what := describeToolCall messages idx
  "[Trimmed: " ++ toString (length text) ++ " chars dropped to free context. " ++ "The result of " ++
    (if what = "" then "an earlier tool call" else what) ++ stubEnd

structure TrimCandidate where
  idx : ℕ
  text : String
  tokens : ℕ

def trimCandidates (messages : List ChatMessage) : List TrimCandidate :=
  let toolIndices := indicesOf (fun m => m.role = .tool) messages
  if toolIndices.length ≤ preserveRecentToolMessages then []
  else
    (toolIndices.take (toolIndices.length - preserveRecentToolMessages)).filterMap (fun idx =>
      messages[idx]?.bind (fun m =>
        let text := messageText m.content
        if startsWith text "[Trimmed:" then none
        else if holdsSkillContent text then none
        else some ⟨idx, text, messageTokens m⟩))

/-- `messages[idx] = { ...messages[idx], content }`. -/
def setContent (messages : List ChatMessage) (idx : ℕ) (content : String) : List ChatMessage :=
  messages.modify idx (fun m => { m with content := .text content })

def stubLoop (budget : ℕ) : List TrimCandidate → ℤ → Bool → List ChatMessage →
    Bool × List ChatMessage
  | [], _, trimmed, messages => (trimmed, messages)
  | c :: candidates, running, trimmed, messages =>
    if running ≤ budget then (trimmed, messages)
    else
      let stub := stubFor messages c.idx c.text
      let freed := (c.tokens : ℤ) - (estimateTokens stub + perMessageOverheadTokens)
      stubLoop budget candidates (running - freed) true (setContent messages c.idx stub)

def trimOldToolMessages (messages : List ChatMessage) (budget : Option ℕ)
    (tools : List ToolDefinition) : Bool × List ChatMessage :=
  let candidates := trimCandidates messages
  if candidates.isEmpty then (false, messages)
  else match budget with
    | none =>
      (true, candidates.foldl (fun ms c => setContent ms c.idx (stubFor ms c.idx c.text)) messages)
    | some budget =>
      let running := estimateMessagesTokens messages tools
      if running ≤ budget then (false, messages)
      else
        let sorted := candidates.insertionSort (fun a b => b.tokens ≤ a.tokens)
        stubLoop budget sorted running false messages

def stubbingCanFit (messages : List ChatMessage) (excess : ℤ) : Bool :=
  excess ≤ ((trimCandidates messages).map (fun c =>
    (c.tokens : ℤ) -
      (estimateTokens (stubFor messages c.idx c.text) + perMessageOverheadTokens))).sum

/-! ## Cutting oversized messages -/

structure OversizedMessage where
  i : ℕ
  role : Role
  text : String
  tokens : ℕ

/-- The message at `i`, if it is to be cut. -/
def oversized? (cap : ℕ) (m : ChatMessage) (i : ℕ) : Option OversizedMessage :=
  match m.content with
  | .text text =>
    if m.role ≠ .system ∧ cap < messageTokens m ∧ holdsSkillContent text = false then
      some ⟨i, m.role, text, messageTokens m⟩
    else none
  | .parts _ => none

def cutLoop (effectiveBudget : ℕ) (tools : List ToolDefinition) (maxBytes : ℕ) :
    List OversizedMessage → ℕ → List ChatMessage → ℕ × List ChatMessage
  | [], truncated, messages => (truncated, messages)
  | c :: candidates, truncated, messages =>
    if estimateMessagesTokens messages tools ≤ effectiveBudget then (truncated, messages)
    else
      let result := truncateCapturedOutput c.text maxBytes (cutHint c.role)
      if result.truncated then
        cutLoop effectiveBudget tools maxBytes candidates (truncated + 1)
          (setContent messages c.i result.text)
      else cutLoop effectiveBudget tools maxBytes candidates truncated messages

def oversizedTokenCap (effectiveBudget : ℕ) : ℕ :=
  max 1 (min oversizedMessageMaxTokens (effectiveBudget / 4))

def truncateOversized (messages : List ChatMessage) (effectiveBudget : ℕ)
    (tools : List ToolDefinition) : ℕ × List ChatMessage :=
  let cap := oversizedTokenCap effectiveBudget
  let candidates := messages.zipIdx.filterMap (fun (m, i) => oversized? cap m i)
  let sorted := candidates.insertionSort (fun a b => b.tokens ≤ a.tokens)
  cutLoop effectiveBudget tools (cap * 7 / 2) sorted 0 messages

/-! ## Dropping old turns -/

/-- The note standing in for an earlier drop. -/
def ChatMessage.isNote (m : ChatMessage) : Bool := m.content = .text droppedTurnsNote

def nonSystemIdx (messages : List ChatMessage) : List ℕ :=
  indicesOf (fun m => m.role ≠ .system ∧ m.isNote = false) messages

def latestUser (messages : List ChatMessage) : Option ℕ :=
  (indicesOf (fun m => m.role = .user ∧ m.isNote = false) messages).getLast?

def droppable (messages : List ChatMessage) : List ℕ :=
  let idx := nonSystemIdx messages
  (idx.take (idx.length - protectedTurns * 2)).filter (fun i => some i ≠ latestUser messages)

/-- The indices to remove, with the running estimate of what is left. -/
def dropLoop (messages : List ChatMessage) (target : ℕ) : List ℕ → ℕ → List ℕ
  | [], _ => []
  | idx :: rest, running =>
    if running ≤ target then []
    else idx :: dropLoop messages target rest
      (running - (messages[idx]?.map messageTokens).getD 0)

def sanitizeOrphanToolResults (messages : List ChatMessage) : List ChatMessage :=
  let validIds := messages.flatMap (fun m =>
    if m.role = .assistant then m.calls.map ToolCall.id else [])
  messages.filter (fun m => ¬ (m.role = .tool ∧ ∃ id ∈ m.callId?, id ∉ validIds))

/-- Fold the note into the leading system message, or put it ahead as a user message. -/
def noteDrop : List ChatMessage → List ChatMessage
  | [] => [⟨.user, .text droppedTurnsNote, none, none⟩]
  | m :: kept =>
    if m.role = .system then
      let text := messageText m.content
      if includes text droppedTurnsNote then m :: kept
      else { m with content := .text (text ++ "\n\n" ++ droppedTurnsNote) } :: kept
    else if m.isNote then m :: kept
    else ⟨.user, .text droppedTurnsNote, none, none⟩ :: m :: kept

def dropOldestTurns (messages : List ChatMessage) (target : ℕ) (tools : List ToolDefinition) :
    ℕ × List ChatMessage :=
  let toRemove :=
    dropLoop messages target (droppable messages) (estimateMessagesTokens messages tools)
  if toRemove.isEmpty then (0, messages)
  else
    let kept := (messages.zipIdx.filter (fun (_, i) => i ∉ toRemove)).map Prod.fst
    (toRemove.length, noteDrop (sanitizeOrphanToolResults kept))

/-! ## The last resort -/

def removed : String := "[Removed to fit context.]"

/-- The rank a message has in the last resort, if it can be cut there. -/
def rank (bigEnough : ℕ) (m : ChatMessage) : Option ℕ :=
  match m.content with
  | .parts _ => none
  | .text text =>
    if text = removed then none
    else
      let t := messageTokens m
      let tier := if m.role ≠ .system ∧ bigEnough < t then 2 else if m.role = .system then 1 else 0
      some (tier * 1000000000 + t)

/-- One cut of the last resort. -/
def halve (m : ChatMessage) : ChatMessage :=
  match m.content with
  | .parts _ => m
  | .text text =>
    let half := byteLength text / 2
    if half < 32 then { m with content := .text removed }
    else
      let result := truncateCapturedOutput text half
      { m with content := .text (if result.truncated then result.text else removed) }

/-- The best message so far, with its rank, after a look at the message at `i`. -/
def better (bigEnough : ℕ) (best : Option (ℕ × ℕ)) (m : ChatMessage) (i : ℕ) : Option (ℕ × ℕ) :=
  match rank bigEnough m, best with
  | none, best => best
  | some r, none => some (i, r)
  | some r, some (j, bestRank) => if bestRank < r then some (i, r) else some (j, bestRank)

def best (bigEnough : ℕ) (messages : List ChatMessage) : Option ℕ :=
  (messages.zipIdx.foldl (fun acc (m, i) => better bigEnough acc m i) none).map Prod.fst

def forceLoop (budget : ℕ) (tools : List ToolDefinition) :
    ℕ → Bool → List ChatMessage → Bool × List ChatMessage
  | 0, cutSystem, messages => (cutSystem, messages)
  | guard + 1, cutSystem, messages =>
    if estimateMessagesTokens messages tools ≤ budget then (cutSystem, messages)
    else match best (budget / 4) messages with
      | none => (cutSystem, messages)
      | some i =>
        let system := messages[i]?.any (fun m => m.role = .system)
        forceLoop budget tools guard (cutSystem || system) (messages.modify i halve)

def forceFit (messages : List ChatMessage) (budget : ℕ) (tools : List ToolDefinition) :
    Bool × List ChatMessage :=
  forceLoop budget tools 100 false messages

/-! ## The guard -/

structure FitOptions where
  reserveOutput : ℤ
  /-- The correction learned for the backend (`getTokenCalibration(calibrationKey)`). -/
  calibration : ℚ
  tools : List ToolDefinition

inductive ContextManagedKind where
  | trim
  | fit
  deriving DecidableEq

structure ContextManagedInfo where
  kind : ContextManagedKind
  forced : Bool
  trimmedTools : Bool
  truncatedMessages : ℕ
  droppedTurns : ℕ
  truncatedSystem : Bool
  beforeEst : ℕ
  afterEst : ℕ

def effectiveBudget (contextSize : ℤ) (opts : FitOptions) : ℕ :=
  let budget := max 1 (contextSize - opts.reserveOutput)
  (max 1 ⌊(budget : ℚ) / opts.calibration⌋).toNat

/-- Steps 1 and 2: stub older tool results and cut oversized messages, whichever way round frees
more. -/
def shorten (messages : List ChatMessage) (budget : ℕ) (tools : List ToolDefinition) :
    Bool × ℕ × List ChatMessage :=
  if stubbingCanFit messages (estimateMessagesTokens messages tools - budget) then
    let (trimmed, messages) := trimOldToolMessages messages (some budget) tools
    if estimateMessagesTokens messages tools ≤ budget then (trimmed, 0, messages)
    else
      let (truncated, messages) := truncateOversized messages budget tools
      (trimmed, truncated, messages)
  else
    let (truncated, messages) := truncateOversized messages budget tools
    if estimateMessagesTokens messages tools ≤ budget then (false, truncated, messages)
    else
      let (trimmed, messages) := trimOldToolMessages messages (some budget) tools
      (trimmed, truncated, messages)

/-- Step 3, if it is needed. -/
def dropTurns (messages : List ChatMessage) (budget : ℕ) (tools : List ToolDefinition) :
    ℕ × List ChatMessage :=
  if estimateMessagesTokens messages tools ≤ budget then (0, messages)
  else dropOldestTurns messages (budget * 4 / 5) tools

def fitMessagesToBudget (messages : List ChatMessage) (contextSize : ℤ) (opts : FitOptions) :
    Option ContextManagedInfo × List ChatMessage :=
  if contextSize ≤ 0 then (none, messages)
  else
    let budget := effectiveBudget contextSize opts
    let beforeEst := estimateMessagesTokens messages opts.tools
    if beforeEst ≤ budget then (none, messages)
    else
      let (trimmedTools, truncatedMessages, messages) := shorten messages budget opts.tools
      let (droppedTurns, messages) := dropTurns messages budget opts.tools
      let forced : Bool := ¬ estimateMessagesTokens messages opts.tools ≤ budget
      let (truncatedSystem, messages) :=
        if forced then forceFit messages budget opts.tools else (false, messages)
      (some ⟨.fit, forced, trimmedTools, truncatedMessages, droppedTurns, truncatedSystem, beforeEst,
        estimateMessagesTokens messages opts.tools⟩, messages)

end Haruspex.ContextBudget
