import Haruspex.ToolCalls.Model

/-! What a text says of calls: its complete tagged blocks, and its function blocks with their
parameters, at whatever place they stand. -/
namespace Haruspex.ToolCalls
open JavaScript Marks Patterns
set_option autoImplicit false

/-! ## Tagged blocks -/

/-- The bodies of a text's complete `<tool_call>` blocks, each up to the first end tag, and the text
outside them. -/
inductive Tagged : List Char → List (List Char) → List (List Char) → Prop where
  | rest (text : List Char)
      (hnone : ¬ ∃ before body after, text = before ++ toolCallOpen ++ body ++ toolCallClose ++ after) :
      Tagged text [text] []
  | block {before body after : List Char} {outside bodies : List (List Char)}
      (hbefore : ¬ toolCallOpen <:+: before) (hbody : ¬ toolCallClose <:+: body)
      (hafter : Tagged after outside bodies) :
      Tagged (before ++ toolCallOpen ++ body ++ toolCallClose ++ after) (before :: outside)
        (body :: bodies)

theorem toolCallMatch_some {text body rest : List Char} (h : toolCallMatch text = some (body, rest)) :
    text = toolCallOpen ++ body ++ toolCallClose ++ rest ∧ ¬ toolCallClose <:+: body := by
  unfold toolCallMatch at h
  split at h
  · rename_i hopen
    refine ⟨?_, cut_first (by decide) h⟩
    have htext := List.prefix_iff_eq_append.mp hopen
    rw [cut_some h] at htext
    simp [← htext]
  · cases h

/-- Where a block is opened and a later one closed, one is read. -/
theorem toolCallMatch_isSome {text after : List Char} (hopen : toolCallOpen <+: text)
    {before : List Char} (hlong : toolCallOpen.length ≤ before.length)
    (htext : text = before ++ toolCallClose ++ after) : toolCallMatch text ≠ none := by
  unfold toolCallMatch
  rw [if_pos hopen, Ne, cut_eq_none_iff, not_not, htext, List.append_assoc,
    List.drop_append_of_le_length hlong, ← List.append_assoc]
  exact ⟨_, _, rfl⟩

theorem first_toolCall_some {text body rest : List Char}
    (h : toolCallPattern.first text = some (body, rest)) :
    ∃ before, text = before ++ toolCallOpen ++ body ++ toolCallClose ++ rest ∧
      ¬ toolCallOpen <:+: before ∧ ¬ toolCallClose <:+: body := by
  induction text with
  | nil => exact absurd (Pattern.match?_nil.symm.trans h) nofun
  | cons c text ih =>
    unfold Pattern.first at h
    split at h
    · rename_i found hfound
      cases h
      obtain ⟨htext, hbody⟩ := toolCallMatch_some hfound
      exact ⟨[], htext, by decide, hbody⟩
    · rename_i hnone
      obtain ⟨before, htext, hbefore, hbody⟩ := ih h
      refine ⟨c :: before, by rw [htext]; rfl, ?_, hbody⟩
      rw [List.infix_cons_iff, not_or]
      refine ⟨fun hopen => ?_, hbefore⟩
      -- the block found later closes the one opened here
      have hhere : toolCallOpen <+: c :: text := by
        rw [htext, List.append_assoc, List.append_assoc, List.append_assoc]
        exact hopen.trans (List.prefix_append (c :: before) _)
      have hclosed : c :: text = c :: before ++ toolCallOpen ++ body ++ toolCallClose ++ rest := by
        rw [htext]
        rfl
      refine toolCallMatch_isSome hhere ?_ hclosed hnone
      simp only [List.length_append]
      omega

theorem first_toolCall_none {text : List Char} (h : toolCallPattern.first text = none) :
    ¬ ∃ before body after, text = before ++ toolCallOpen ++ body ++ toolCallClose ++ after := by
  rintro ⟨before, body, after, rfl⟩
  induction before with
  | nil =>
    have hmatch : toolCallMatch ([] ++ toolCallOpen ++ body ++ toolCallClose ++ after) ≠ none := by
      refine toolCallMatch_isSome ?_ ?_ rfl
      · rw [List.nil_append, List.append_assoc, List.append_assoc]
        exact List.prefix_append _ _
      · simp only [List.nil_append, List.length_append]
        omega
    have hcons : [] ++ toolCallOpen ++ body ++ toolCallClose ++ after =
      '<' :: (toolCallOpen.tail ++ body ++ toolCallClose ++ after) := rfl
    rw [hcons] at h hmatch
    unfold Pattern.first at h
    split at h
    · cases h
    · rename_i hnone
      exact hmatch hnone
  | cons c before ih =>
    rw [List.cons_append, List.cons_append, List.cons_append, List.cons_append] at h
    unfold Pattern.first at h
    split at h
    · cases h
    · exact ih h

/-- The search with `exec` reads every complete block. -/
theorem tagged_all (text : List Char) : ∃ outside, Tagged text outside (toolCallPattern.all text) := by
  fun_induction Pattern.all toolCallPattern text with
  | case1 text hnone => exact ⟨[text], .rest text (first_toolCall_none hnone)⟩
  | case2 text body rest hfound ih =>
    obtain ⟨before, rfl, hbefore, hbody⟩ := first_toolCall_some hfound
    obtain ⟨outside, hrest⟩ := ih
    exact ⟨before :: outside, .block hbefore hbody hrest⟩

/-- Without a tag there is no tagged block. -/
theorem toolCalls_nil_of_hasToolCalls {text : List Char} (h : hasToolCalls text = false) :
    toolCallPattern.all text = [] := by
  cases hfirst : toolCallPattern.first text with
  | none =>
    unfold Pattern.all
    rw [hfirst]
  | some found =>
    obtain ⟨before, htext, -⟩ := @first_toolCall_some _ found.1 found.2 hfirst
    refine absurd h ?_
    rw [hasToolCalls, htext, decide_eq_false_iff_not, not_not, List.append_assoc, List.append_assoc]
    exact ⟨before, _, rfl⟩

/-! ## Function blocks -/

/-- A `<function=NAME>` block, with the `<parameter=KEY>` that stand in it. -/
structure FunctionBlock where
  name : String
  parameters : List (String × String)

def functionBlocks (text : List Char) : List FunctionBlock :=
  (functionPattern.everywhere text).map (fun (name, body) =>
    { name := String.ofList name
      parameters := (parameterPattern.everywhere body).map (fun (key, raw) =>
        (String.ofList key, String.ofList raw)) })

namespace FunctionBlock

/-- The parameters that make fields. -/
def fields (block : FunctionBlock) : List (String × String) :=
  block.parameters.filter (fun parameter => parameter.1 ≠ proto)

def Repeats (block : FunctionBlock) : Prop := ¬ (block.fields.map Prod.fst).Nodup

def call (block : FunctionBlock) : ParsedToolCall :=
  ⟨.string block.name,
    .object (block.fields.map (fun (key, raw) => (key, coerceFunctionStyleValue raw)))⟩

end FunctionBlock

/-! ## Reading a function block -/

/-- The fields that the parameters make. -/
def fieldsWritten (parameters : List (List Char × List Char)) : List (String × String) :=
  (parameters.map (fun (key, raw) => (String.ofList key, String.ofList raw))).filter
    (fun parameter => parameter.1 ≠ proto)

def coerceFields (fields : List (String × String)) : List (String × Json) :=
  fields.map (fun (key, raw) => (key, coerceFunctionStyleValue raw))

theorem any_key_iff (args : List (String × Json)) (key : String) :
    args.any (fun field => field.1 == key) = true ↔ key ∈ args.map Prod.fst := by
  simp only [List.any_eq_true, beq_iff_eq, List.mem_map]

theorem readParameters_ok (name : String) (parameters : List (List Char × List Char))
    (args : List (String × Json)) (hproto : proto ∉ args.map Prod.fst)
    (hnodup : (args.map Prod.fst ++ (fieldsWritten parameters).map Prod.fst).Nodup) :
    readParameters name parameters args = .ok (args ++ coerceFields (fieldsWritten parameters)) := by
  induction parameters generalizing args with
  | nil => simp [readParameters, fieldsWritten, coerceFields]
  | cons parameter parameters ih =>
    obtain ⟨key, raw⟩ := parameter
    unfold readParameters
    by_cases hkey : String.ofList key = proto
    · have hskip : fieldsWritten ((key, raw) :: parameters) = fieldsWritten parameters := by
        simp [fieldsWritten, hkey]
      rw [hskip] at hnodup ⊢
      rw [if_neg (by rwa [any_key_iff, hkey]), assign, if_pos hkey]
      exact ih args hproto hnodup
    · have htake : fieldsWritten ((key, raw) :: parameters) =
          (String.ofList key, String.ofList raw) :: fieldsWritten parameters := by
        simp [fieldsWritten, hkey]
      rw [htake, List.map_cons] at hnodup
      have hfresh : String.ofList key ∉ args.map Prod.fst := by
        intro hmem
        exact (List.nodup_append.mp hnodup).2.2 _ hmem _ List.mem_cons_self rfl
      rw [if_neg (by rwa [any_key_iff]), assign, if_neg hkey, ih, htake]
      · simp [coerceFields]
      · simp only [List.map_append, List.map_cons, List.map_nil, List.mem_append, List.mem_singleton]
        exact not_or.mpr ⟨hproto, fun h => hkey h.symm⟩
      · simpa using hnodup

/-- A repeated parameter is refused. -/
theorem readParameters_error (name : String) (parameters : List (List Char × List Char))
    (args : List (String × Json)) (hargs : (args.map Prod.fst).Nodup)
    (hrepeat : ¬ (args.map Prod.fst ++ (fieldsWritten parameters).map Prod.fst).Nodup) :
    ∃ reason, readParameters name parameters args = .error reason := by
  induction parameters generalizing args with
  | nil => exact absurd (by simpa [fieldsWritten] using hargs) hrepeat
  | cons parameter parameters ih =>
    obtain ⟨key, raw⟩ := parameter
    unfold readParameters
    split
    · exact ⟨_, rfl⟩
    · rename_i hany
      rw [any_key_iff] at hany
      by_cases hkey : String.ofList key = proto
      · have hskip : fieldsWritten ((key, raw) :: parameters) = fieldsWritten parameters := by
          simp [fieldsWritten, hkey]
        rw [hskip] at hrepeat
        rw [assign, if_pos hkey]
        exact ih args hargs hrepeat
      · have htake : fieldsWritten ((key, raw) :: parameters) =
            (String.ofList key, String.ofList raw) :: fieldsWritten parameters := by
          simp [fieldsWritten, hkey]
        rw [htake, List.map_cons] at hrepeat
        rw [assign, if_neg hkey]
        refine ih _ ?_ (by simpa using hrepeat)
        rw [List.map_append, List.nodup_append]
        refine ⟨hargs, by simp, ?_⟩
        intro a ha b hb
        obtain rfl := List.mem_singleton.mp hb
        rintro rfl
        exact hany ha

/-- What the patterns find, as a block. -/
def blockOf (found : List Char × List Char) : FunctionBlock :=
  { name := String.ofList found.1
    parameters := (parameterPattern.everywhere found.2).map (fun (key, raw) =>
      (String.ofList key, String.ofList raw)) }

theorem functionBlocks_eq (text : List Char) :
    functionBlocks text = (functionPattern.everywhere text).map blockOf := rfl

theorem readBlocks_ok (found : List (List Char × List Char))
    (h : ∀ block ∈ found.map blockOf, ¬ block.Repeats) :
    readBlocks found = .ok ((found.map blockOf).map FunctionBlock.call) := by
  induction found with
  | nil => rfl
  | cons first found ih =>
    obtain ⟨name, body⟩ := first
    have hfirst : ¬ (blockOf (name, body)).Repeats := h _ (by simp)
    have hargs := readParameters_ok (String.ofList name) (parameterPattern.all body) [] (by simp) (by
      rw [Pattern.all_eq_everywhere parameterPattern_apart]
      exact not_not.mp hfirst)
    rw [readBlocks, hargs, ih fun block hblock => h block (by simp_all),
      Pattern.all_eq_everywhere parameterPattern_apart]
    rfl

theorem readBlocks_error (found : List (List Char × List Char))
    (h : ∃ block ∈ found.map blockOf, block.Repeats) : ∃ reason, readBlocks found = .error reason := by
  induction found with
  | nil => simp at h
  | cons first found ih =>
    obtain ⟨name, body⟩ := first
    by_cases hfirst : (blockOf (name, body)).Repeats
    · obtain ⟨reason, hreason⟩ :=
        readParameters_error (String.ofList name) (parameterPattern.all body) [] (by simp) (by
          rw [Pattern.all_eq_everywhere parameterPattern_apart]
          exact hfirst)
      exact ⟨reason, by rw [readBlocks, hreason]; rfl⟩
    · obtain ⟨reason, hreason⟩ := ih (by simpa [hfirst] using h)
      have hargs := readParameters_ok (String.ofList name) (parameterPattern.all body) [] (by simp) (by
        rw [Pattern.all_eq_everywhere parameterPattern_apart]
        exact not_not.mp hfirst)
      exact ⟨reason, by rw [readBlocks, hargs, hreason]; rfl⟩

/-- Every function block of the text is a call, in order, unless one repeats a parameter. -/
theorem parse_ok (content : List Char) (h : ∀ block ∈ functionBlocks content, ¬ block.Repeats) :
    parseFunctionStyleToolCalls content = .ok ((functionBlocks content).map FunctionBlock.call) := by
  rw [parseFunctionStyleToolCalls, Pattern.all_eq_everywhere functionPattern_apart]
  exact readBlocks_ok _ h

theorem parse_error (content : List Char) (h : ∃ block ∈ functionBlocks content, block.Repeats) :
    ∃ reason, parseFunctionStyleToolCalls content = .error reason := by
  rw [parseFunctionStyleToolCalls, Pattern.all_eq_everywhere functionPattern_apart]
  exact readBlocks_error _ h

theorem parse_ok_iff (content : List Char) (calls : List ParsedToolCall) :
    parseFunctionStyleToolCalls content = .ok calls ↔
      (∀ block ∈ functionBlocks content, ¬ block.Repeats) ∧
        calls = (functionBlocks content).map FunctionBlock.call := by
  by_cases h : ∀ block ∈ functionBlocks content, ¬ block.Repeats
  · rw [parse_ok content h, Except.ok.injEq]
    exact ⟨fun heq => ⟨h, heq.symm⟩, fun hall => hall.2.symm⟩
  · push Not at h
    obtain ⟨reason, hreason⟩ := parse_error content h
    rw [hreason]
    obtain ⟨block, hmem, hrepeats⟩ := h
    exact ⟨(nomatch ·), fun hall => absurd hrepeats (hall.1 block hmem)⟩

/-! ## Reading a tagged block -/

/-- What the body of a tagged block says, as far as it can be read. -/
def bodyCalls (body : List Char) : List ParsedToolCall :=
  match readJsonCall (trimChars body) with
  | some call => [call]
  | none => (functionBlocks (trimChars body)).map FunctionBlock.call

/-- The body is function blocks, and one of them repeats a parameter. -/
def BodyRepeats (body : List Char) : Prop :=
  readJsonCall (trimChars body) = none ∧ ∃ block ∈ functionBlocks (trimChars body), block.Repeats

theorem callsOfBody_eq {body : List Char} (h : ¬ BodyRepeats body) :
    callsOfBody body = bodyCalls body := by
  cases hjson : readJsonCall (trimChars body) with
  | some call => rw [callsOfBody, bodyCalls, hjson]
  | none =>
    have hnone : ∀ block ∈ functionBlocks (trimChars body), ¬ block.Repeats := by
      intro block hblock hrepeats
      exact h ⟨hjson, block, hblock, hrepeats⟩
    rewrite [callsOfBody, bodyCalls, hjson]
    dsimp only
    split
    · have hparsed := parse_ok (trimChars body) hnone
      unfold extractFunctionStyleToolCalls
      rw [hparsed]
    · rename_i hmarkup
      have hblocks : functionPattern.everywhere (trimChars body) = [] := by
        by_contra hne
        exact hmarkup (hasFunctionStyleToolCalls_of_block hne)
      rw [functionBlocks_eq, hblocks]
      rfl

theorem callsOfBody_nil {body : List Char} (h : BodyRepeats body) : callsOfBody body = [] := by
  obtain ⟨hjson, hblock⟩ := h
  obtain ⟨reason, hreason⟩ := parse_error _ hblock
  simp only [callsOfBody, hjson, extractFunctionStyleToolCalls, hreason]
  split
  · rfl
  · rfl

end Haruspex.ToolCalls
