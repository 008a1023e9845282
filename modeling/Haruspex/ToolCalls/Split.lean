import Haruspex.ToolCalls.Readings

/-! The calls a model writes into its text, cut out of what is shown of it (`agent/textToolCalls.ts`). -/
namespace Haruspex.ToolCalls
open JavaScript Marks Patterns
set_option autoImplicit false

structure PartialToolCall where
  name : String
  argsSoFar : String

/-! ## Function blocks -/

/-- The text of a function block, up to `</function>` (taken with it), the next `<function=`, or the end; and what
comes after it. -/
def functionCut (text : List Char) : List Char × List Char :=
  let inner := upTo [functionOpen, functionClose] (text.drop functionOpen.length)
  (functionOpen ++ inner.1,
    if functionClose <+: inner.2 then inner.2.drop functionClose.length else inner.2)

/-- `<parameter=KEY>`, up to the next one, its end tag or the end. -/
def shownParameterPattern : Pattern Char (List Char × List Char) :=
  blockPattern parameterOpen.tail [parameterOpen, parameterClose]

/-- `value.replace(/^\n/, '').replace(/\n$/, '')` -/
def stripNewlines (value : List Char) : List Char :=
  let value := if value.head? = some '\n' then value.tail else value
  if value.getLast? = some '\n' then value.dropLast else value

/-- `params[key] = value` -/
def setParam (params : List (String × Json)) (key : String) (value : Json) : List (String × Json) :=
  if params.any (fun field => field.1 == key) then
    params.map fun field => if field.1 = key then (key, value) else field
  else assign params key value

/-- The call of a block; its name counts once its tag is closed. -/
def readFunctionBlock (block : List Char) : Option PartialToolCall :=
  (readHead functionOpen block).map fun (name, rest) =>
    { name := String.ofList name
      argsSoFar := (Json.object ((shownParameterPattern.all rest).foldl (fun params (key, raw) =>
        setParam params (String.ofList key) (.string (String.ofList (stripNewlines raw)))) [])).stringify }

/-! ## Tagged blocks -/

def nameKey : List Char := "\"name\"".toList

def argumentsKey : List Char := "\"arguments\"".toList

/-- `\s*:\s*` -/
def afterColon (text : List Char) : Option (List Char) :=
  match text.dropWhile isBlank with
  | ':' :: rest => some (rest.dropWhile isBlank)
  | _ => none

/-- `"name"\s*:\s*"([^"\\]+)"`, at the start. -/
def nameAt (text : List Char) : Option (List Char) :=
  if nameKey <+: text then
    match afterColon (text.drop nameKey.length) with
    | some ('"' :: rest) =>
      let name := rest.takeWhile fun c => c ≠ '"' && c ≠ '\\'
      if name ≠ [] ∧ (rest.drop name.length).head? = some '"' then some name else none
    | _ => none
  else none

/-- `"arguments"\s*:\s*`, at the start: what comes after it. -/
def argumentsAt (text : List Char) : Option (List Char) :=
  if argumentsKey <+: text then afterColon (text.drop argumentsKey.length) else none

/-- The first place where something is found. -/
def search {β : Type} (at? : List Char → Option β) : List Char → Option β
  | [] => at? []
  | c :: text => (at? (c :: text)).or (search at? text)

/-- The call in the body of a tagged block. -/
def readTaggedBody (body : List Char) : Option PartialToolCall :=
  match cut functionOpen body with
  | some (_, rest) => readFunctionBlock (functionCut (functionOpen ++ rest)).1
  | none =>
    (search nameAt body).map fun name =>
      { name := String.ofList name, argsSoFar := String.ofList ((search argumentsAt body).getD []) }

/-! ## The text -/

/-- A block that is cut out. -/
inductive CutBlock where
  | tagged (body : List Char)
  /-- A `<tool_call>` without an end tag takes all that comes. -/
  | opened (body : List Char)
  | function (block : List Char)

def CutBlock.call : CutBlock → Option PartialToolCall
  | tagged body => readTaggedBody body
  | opened body => readTaggedBody body
  | function block => readFunctionBlock block

/-- `<function=[a-zA-Z_]`, at the start. -/
def startsFunction (text : List Char) : Bool :=
  functionOpen <+: text && (text.drop functionOpen.length).head?.any isNameStart

/-- A block where one starts, and what comes after it. -/
def cutMatch (text : List Char) : Option (CutBlock × List Char) :=
  if toolCallOpen <+: text then
    match cut toolCallClose (text.drop toolCallOpen.length) with
    | some (body, rest) => some (.tagged body, rest)
    | none => some (.opened (text.drop toolCallOpen.length), [])
  else if startsFunction text then some (.function (functionCut text).1, (functionCut text).2)
  else none

theorem functionCut_append {text : List Char} (h : functionOpen <+: text) :
    ∃ mark, text = (functionCut text).1 ++ mark ++ (functionCut text).2 ∧ (mark = [] ∨ mark = functionClose) := by
  obtain ⟨rest, rfl⟩ := h
  unfold functionCut
  rw [List.drop_left]
  have happend := @upTo_append _ _ [functionOpen, functionClose] rest
  dsimp only
  split
  · rename_i hclose
    refine ⟨functionClose, ?_, .inr rfl⟩
    rw [List.append_assoc, List.append_assoc, List.prefix_iff_eq_append.mp hclose, happend]
  · refine ⟨[], ?_, .inl rfl⟩
    rw [List.append_nil, List.append_assoc, happend]

def cutPattern : Pattern Char CutBlock where
  match? := cutMatch
  shorter := by
    intro text block rest h
    unfold cutMatch at h
    split at h
    · rename_i hopen
      obtain ⟨after, rfl⟩ := hopen
      rw [List.drop_left] at h
      split at h
      · rename_i body rest' hcut
        cases h
        rw [cut_some hcut]
        simp only [List.length_append, toolCallOpen, List.length_cons]
        omega
      · cases h
        simp [toolCallOpen]
    · split at h
      · rename_i hstart
        cases h
        have hopen : functionOpen <+: text := by
          rw [startsFunction, Bool.and_eq_true, decide_eq_true_eq] at hstart
          exact hstart.1
        obtain ⟨mark, htext, -⟩ := functionCut_append hopen
        have hlength := congrArg List.length htext
        have hblock : functionOpen.length ≤ (functionCut text).1.length := by simp [functionCut]
        simp only [List.length_append] at hlength
        have hmark : 0 < functionOpen.length := by decide
        omega
      · cases h

def closePattern : Pattern Char Unit where
  match? text := if toolCallClose <+: text then some ((), text.drop toolCallClose.length) else none
  shorter := by
    intro text block rest h
    split at h
    · rename_i hclose
      cases h
      have hle := hclose.length_le
      have hmark : 0 < toolCallClose.length := by decide
      rw [List.length_drop]
      omega
    · cases h

/-- A call marker cut off at the end is dropped. -/
def dropOpenMarker (text : List Char) : List Char :=
  if '<' ∈ text then
    let tail := '<' :: (text.reverse.takeWhile (· ≠ '<')).reverse
    if tail.length < 2 then text
    else if tail <+: toolCallOpen ∨ tail <+: functionOpen then text.take (text.length - tail.length)
    else text
  else text

structure TextToolCalls where
  text : List Char
  calls : List PartialToolCall

/-- What a text says, and the calls it writes. -/
def splitTextToolCalls (text : List Char) : TextToolCalls where
  text := dropOpenMarker (closePattern.replace (fun _ => []) (cutPattern.replace (fun _ => []) text))
  calls := (cutPattern.all text).filterMap CutBlock.call

end Haruspex.ToolCalls
