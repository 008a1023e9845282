import Haruspex.JavaScript.Json
import Haruspex.ToolCalls.Blocks
import Mathlib.Data.Nat.Digits.Defs

/-! The tool calls of a response (`agent/parser.ts`): structured, or written into the text. -/
namespace Haruspex.ToolCalls
open JavaScript
set_option autoImplicit false

/-! ## Data -/

structure ToolDefinition where
  name : String
  /-- `parameters.required` -/
  required : Option Json

/-- An entry of `tool_calls`. -/
structure StructuredCall where
  id : String
  name : String
  arguments : String

structure ChatCompletionResponse where
  content : Option String
  finishReason : String
  toolCalls : List StructuredCall

/-- Nothing checks that the name a model writes is a string. -/
structure ParsedToolCall where
  name : Json
  arguments : Json

structure ResolvedToolCall where
  id : String
  name : Json
  arguments : Json
  /-- The call as the model wrote it, when that was a `use_tool` call. -/
  wire : Option ParsedToolCall := none

inductive ToolCallResolution where
  | calls (calls : List ResolvedToolCall)
  | rejected (reason : String)
  | none

inductive Thrown where
  /-- A property of `null` was read. -/
  | typeError

def isNamed (name : Json) (word : String) : Bool :=
  match name with
  | .string text => text == word
  | _ => false

/-! ## Values of parameters -/

def coerceLiteral (s : String) : Option Json :=
  if s = "" then some (.string "")
  else if s = "null" then some .null
  else if s = "true" then some (.bool true)
  else if s = "false" then some (.bool false)
  else none

def splitSign : List Char → List Char × List Char
  | '-' :: cs => (['-'], cs)
  | cs => ([], cs)

def isDigits (cs : List Char) : Bool := cs ≠ [] ∧ cs.all Char.isDigit

/-- `Number.MAX_SAFE_INTEGER` -/
def maxSafeInteger : ℕ := 2 ^ 53 - 1

/-- Safe integers only. -/
def coerceInteger (s : String) : Option Json :=
  let (sign, digits) := splitSign s.toList
  if isDigits digits && Json.digitsValue digits ≤ maxSafeInteger then
    some (.number (String.ofList (sign ++ Nat.toDigits 10 (Json.digitsValue digits))))
  else none

def coerceFloat (s : String) : Option Json :=
  let (whole, fraction) := (splitSign s.toList).2.span (· ≠ '.')
  if isDigits whole && fraction ≠ [] && isDigits (fraction.drop 1) then some (.number s) else none

def coerceJson (s : String) : Option Json :=
  if startsWith s "\x7b" || startsWith s "[" then Json.parse s else none

def isWrapped (quote : Char) (cs : List Char) : Bool :=
  cs.head? = some quote ∧ cs.getLast? = some quote ∧ 2 ≤ cs.length

def coerceQuoted (s : String) : Option Json :=
  if isWrapped '"' s.toList || isWrapped '\'' s.toList then
    some (.string (String.ofList s.toList.tail.dropLast))
  else none

def coerceFunctionStyleValue (raw : String) : Json :=
  let s := trim raw
  let coerced := (coerceLiteral s).or <| (coerceInteger s).or <| (coerceFloat s).or <|
    (coerceJson s).or (coerceQuoted s)
  coerced.getD (.string s)

/-! ## Function blocks -/

/-- The name that sets an object's prototype and makes no field. -/
def proto : String := "__proto__"

/-- `args[key] = value` -/
def assign (args : List (String × Json)) (key : String) (value : Json) : List (String × Json) :=
  if key = proto then args else args ++ [(key, value)]

/-- The arguments of a block, or why it is refused. -/
def readParameters (name : String) :
    List (List Char × List Char) → List (String × Json) → Except String (List (String × Json))
  | [], args => .ok args
  | (key, raw) :: parameters, args =>
    if args.any (fun field => field.1 == String.ofList key) then
      .error ("duplicate parameter '" ++ String.ofList key ++ "' in call to '" ++ name ++
        "' — ambiguous, refusing to guess")
    else
      readParameters name parameters
        (assign args (String.ofList key) (coerceFunctionStyleValue (String.ofList raw)))

def readBlocks : List (List Char × List Char) → Except String (List ParsedToolCall)
  | [] => .ok []
  | (name, body) :: blocks => do
    let args ← readParameters (String.ofList name) (parameterPattern.all body) []
    let calls ← readBlocks blocks
    .ok (⟨.string (String.ofList name), .object args⟩ :: calls)

/-- The calls, or the reason the content was refused outright. -/
def parseFunctionStyleToolCalls (content : List Char) : Except String (List ParsedToolCall) :=
  readBlocks (functionPattern.all content)

def extractFunctionStyleToolCalls (content : List Char) : List ParsedToolCall :=
  match parseFunctionStyleToolCalls content with
  | .ok calls => calls
  | .error _ => []

/-! ## Tagged blocks -/

def trimChars (cs : List Char) : List Char := (trim (String.ofList cs)).toList

/-- The body of a `<tool_call>` as JSON with a name and arguments. -/
def readJsonCall (inner : List Char) : Option ParsedToolCall := do
  let parsed ← Json.parse (String.ofList inner)
  let name ← parsed.field? "name"
  let arguments ← parsed.field? "arguments"
  if name.truthy && arguments.truthy then some ⟨name, arguments⟩ else none

def callsOfBody (body : List Char) : List ParsedToolCall :=
  match readJsonCall (trimChars body) with
  | some call => [call]
  | none =>
    if hasFunctionStyleToolCalls (trimChars body) then extractFunctionStyleToolCalls (trimChars body)
    else []

def extractToolCalls (content : List Char) : List ParsedToolCall :=
  (toolCallPattern.all content).flatMap callsOfBody

/-! ## Structured calls -/

/-- A generation cut off. -/
def wasTruncated (response : ChatCompletionResponse) : Bool := response.finishReason == "length"

/-- Many servers send "" for a tool without arguments. -/
def readArguments (raw : String) : Option Json :=
  if trim raw = "" then some (.object []) else Json.parse raw

def readEntry (entry : StructuredCall) : Option ResolvedToolCall :=
  (readArguments entry.arguments).map (fun arguments => ⟨entry.id, .string entry.name, arguments, none⟩)

-- Whether `value[key]`, where it is no field of an object, is something all the same: what a value has
-- by its prototype, or as a text or an array.
variable (inherits : Json → String → Bool)

def isMissing (arguments : Json) (key : String) : Bool :=
  match arguments.field? key with
  | some .null => true
  | some (.string text) => text == ""
  | some _ => false
  | none => !inherits arguments key

def firstMissing (arguments : Json) : List Json → Except Thrown (Option String)
  | [] => .ok none
  | .string key :: keys =>
    match arguments with
    | .null => .error .typeError
    | arguments => if isMissing inherits arguments key then .ok (some key) else firstMissing arguments keys
  | _ :: keys => firstMissing arguments keys

/-- The first required argument that a call lacks. -/
def missingRequiredArg (call : ResolvedToolCall) (tools : List ToolDefinition) :
    Except Thrown (Option String) :=
  match (tools.find? (fun tool => isNamed call.name tool.name)).bind ToolDefinition.required with
  | some (.array keys) => firstMissing inherits call.arguments keys
  | _ => .ok none

/-- Why the calls of a generation cut off are refused. -/
def refuseIncomplete (tools : List ToolDefinition) : List ResolvedToolCall → Except Thrown (Option String)
  | [] => .ok none
  | call :: calls =>
    match missingRequiredArg inherits call tools with
    | .error e => .error e
    | .ok none => refuseIncomplete tools calls
    | .ok (some key) =>
      if key = "" then refuseIncomplete tools calls
      else
        .ok (some ("the response hit its output limit while writing the \"" ++ key ++ "\" argument to " ++
          (match call.name with | .string name => name | name => name.stringify) ++
          ", so the call arrived without it"))

/-- `none` to try the text instead. -/
def resolveStructuredCalls (response : ChatCompletionResponse) (tools : List ToolDefinition) :
    Except Thrown (Option ToolCallResolution) :=
  let parsed := response.toolCalls.filterMap readEntry
  let anyUnparseable := response.toolCalls.any (fun entry => (readEntry entry).isNone)
  if anyUnparseable && wasTruncated response then .ok (some (.rejected "truncated tool call arguments"))
  else
    match if wasTruncated response then refuseIncomplete inherits tools parsed else .ok none with
    | .error e => .error e
    | .ok (some reason) => .ok (some (.rejected reason))
    | .ok none => if parsed.length > 0 then .ok (some (.calls parsed)) else .ok none

/-! ## `use_tool` -/

def USE_TOOL : String := "use_tool"

def innerArguments (raw : Option Json) : List (String × Json) :=
  match raw with
  | some (.string text) =>
    if trim text = "" then []
    else
      match Json.parse text with
      | some (.object fields) => fields
      | _ => []
  | some (.object fields) => fields
  | _ => []

/-- The tool a `use_tool` call is for. -/
def innerName (arguments : Json) : Option String :=
  match arguments.field? "name" with
  | some (.string text) => if trim text = "" ∨ trim text = USE_TOOL then none else some (trim text)
  | _ => none

def fieldsOf : Json → List (String × Json)
  | .object fields => fields
  | _ => []

/-- A `use_tool` call as a call to the tool it names. -/
def unwrapUseTool (call : ResolvedToolCall) : Except Thrown ResolvedToolCall :=
  if isNamed call.name USE_TOOL then
    match call.arguments with
    | .null => .error .typeError
    | arguments =>
      match innerName arguments with
      | none => .ok call
      | some name =>
        let beside := (fieldsOf arguments).filter (fun field => field.1 ≠ "name" && field.1 ≠ "arguments")
        .ok { id := call.id
              name := .string name
              arguments := .object (beside ++ innerArguments (arguments.field? "arguments"))
              wire := some ⟨call.name, call.arguments⟩ }
  else .ok call

/-! ## Resolving -/

def digit36 (n : ℕ) : Char :=
  if n < 10 then Char.ofNat ('0'.toNat + n) else Char.ofNat ('a'.toNat + (n - 10))

/-- `call_${seq.toString(36)}` -/
def toolCallId (seq : ℕ) : String :=
  "call_" ++ (if seq = 0 then "0" else String.ofList ((Nat.digits 36 seq).reverse.map digit36))

/-- Calls written into the text, with ids from the counter on. -/
def mint : ℕ → List ParsedToolCall → List ResolvedToolCall
  | _, [] => []
  | seq, call :: calls => ⟨toolCallId seq, call.name, call.arguments, none⟩ :: mint (seq + 1) calls

/-- Either syntax the text fallbacks would try to salvage. -/
def hasAnyToolCallSyntax (content : List Char) : Bool :=
  hasToolCalls content || hasFunctionStyleToolCalls content

/-- The text fallbacks, and the counter after them. -/
def resolveText (seq : ℕ) (response : ChatCompletionResponse) (content : List Char) :
    ToolCallResolution × ℕ :=
  if wasTruncated response && hasAnyToolCallSyntax content then
    (.rejected "response truncated mid tool call", seq)
  else
    let tagged := if hasToolCalls content then extractToolCalls content else []
    if tagged.length > 0 then (.calls (mint seq tagged), seq + tagged.length)
    else if hasFunctionStyleToolCalls content then
      match parseFunctionStyleToolCalls content with
      | .error reason => (.rejected reason, seq)
      | .ok calls => (.calls (mint seq calls), seq + calls.length)
    else (.none, seq)

def resolveRawToolCalls (seq : ℕ) (response : ChatCompletionResponse) (tools : List ToolDefinition) :
    Except Thrown ToolCallResolution × ℕ :=
  match resolveStructuredCalls inherits response tools with
  | .error e => (.error e, seq)
  | .ok (some structured) => (.ok structured, seq)
  | .ok none =>
    match response.content with
    | some content =>
      if content = "" then (.ok .none, seq)
      else
        let (resolution, seq) := resolveText seq response content.toList
        (.ok resolution, seq)
    | none => (.ok .none, seq)

def offersUseTool (tools : List ToolDefinition) : Bool := tools.any (fun tool => tool.name == USE_TOOL)

/-- The outcome, and the counter of ids after it. -/
def resolveToolCalls (seq : ℕ) (response : ChatCompletionResponse) (tools : List ToolDefinition) :
    Except Thrown ToolCallResolution × ℕ :=
  match resolveRawToolCalls inherits seq response tools with
  | (.ok (.calls calls), seq) =>
    if offersUseTool tools then ((calls.mapM unwrapUseTool).map .calls, seq) else (.ok (.calls calls), seq)
  | raw => raw

end Haruspex.ToolCalls
