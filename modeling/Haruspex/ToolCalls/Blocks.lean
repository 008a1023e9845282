import Haruspex.JavaScript.Text
import Haruspex.Library.Marks
import Haruspex.Library.Patterns
import Mathlib.Data.List.TakeWhile

/-! The blocks a model writes its calls in (the patterns of `agent/parser.ts`): `<tool_call>` to its end
tag, and `<function=NAME>` and `<parameter=KEY>`, which need none. -/
namespace Haruspex.ToolCalls
open JavaScript Marks Patterns
set_option autoImplicit false

/-! ## Marks -/

def toolCallOpen : List Char := ['<', 't', 'o', 'o', 'l', '_', 'c', 'a', 'l', 'l', '>']

def toolCallClose : List Char := ['<', '/', 't', 'o', 'o', 'l', '_', 'c', 'a', 'l', 'l', '>']

def functionOpen : List Char := ['<', 'f', 'u', 'n', 'c', 't', 'i', 'o', 'n', '=']

def functionClose : List Char := ['<', '/', 'f', 'u', 'n', 'c', 't', 'i', 'o', 'n', '>']

def parameterOpen : List Char := ['<', 'p', 'a', 'r', 'a', 'm', 'e', 't', 'e', 'r', '=']

def parameterClose : List Char := ['<', '/', 'p', 'a', 'r', 'a', 'm', 'e', 't', 'e', 'r', '>']

/-! ## `<tool_call>` -/

/-- `<tool_call>\s*([\s\S]*?)\s*<\/tool_call>`, but for the blanks around the body. -/
def toolCallMatch (text : List Char) : Option (List Char × List Char) :=
  if toolCallOpen <+: text then cut toolCallClose (text.drop toolCallOpen.length) else none

theorem toolCallMatch_shorter {text body rest : List Char} (h : toolCallMatch text = some (body, rest)) :
    rest.length < text.length := by
  unfold toolCallMatch at h
  split at h
  · have happend := congrArg List.length (cut_some h)
    simp only [List.length_drop, List.length_append, toolCallClose, List.length_cons] at happend
    omega
  · cases h

def toolCallPattern : Pattern Char (List Char) := ⟨toolCallMatch, toolCallMatch_shorter⟩

/-- `/<tool_call>/.test(content)` -/
def hasToolCalls (content : List Char) : Bool := toolCallOpen <:+: content

/-! ## `<function=NAME>` and `<parameter=KEY>` -/

/-- `[a-zA-Z_]` -/
def isNameStart (c : Char) : Bool := c.isAlpha || c == '_'

/-- `[a-zA-Z0-9_]` -/
def isNameChar (c : Char) : Bool := c.isAlphanum || c == '_'

/-- `<mark=([a-zA-Z_][a-zA-Z0-9_]*)\s*>`: the name, and what follows. -/
def readHead (mark text : List Char) : Option (List Char × List Char) :=
  if mark <+: text then
    match text.drop mark.length with
    | [] => none
    | c :: rest =>
      if isNameStart c then
        match (rest.dropWhile isNameChar).dropWhile isBlank with
        | '>' :: after => some (c :: rest.takeWhile isNameChar, after)
        | _ => none
      else none
  else none

theorem readHead_some {mark text name after : List Char} (h : readHead mark text = some (name, after)) :
    ∃ mid, text = mark ++ mid ++ after ∧ '<' ∉ mid := by
  unfold readHead at h
  split at h
  · rename_i hmark
    obtain ⟨rest, rfl⟩ := hmark
    rw [List.drop_left] at h
    split at h
    · cases h
    · rename_i c rest
      split at h
      · rename_i hstart
        split at h
        · rename_i tail htail
          cases h
          refine ⟨c :: (rest.takeWhile isNameChar ++
            (rest.dropWhile isNameChar).takeWhile isBlank ++ ['>']), ?_, ?_⟩
          · have hname := List.takeWhile_append_dropWhile (p := isNameChar) (l := rest)
            have hblank := List.takeWhile_append_dropWhile (p := isBlank) (l := rest.dropWhile isNameChar)
            rw [htail] at hblank
            conv_lhs => rw [← hname, ← hblank]
            simp
          · intro hmem
            simp only [List.mem_cons, List.mem_append, List.not_mem_nil, or_false] at hmem
            obtain rfl | (hmem | hmem) | hmem := hmem
            · exact absurd hstart (by decide)
            · exact absurd (List.mem_takeWhile_imp hmem) (by decide)
            · exact absurd (List.mem_takeWhile_imp hmem) (by decide)
            · exact absurd hmem (by decide)
        · cases h
      · cases h
  · cases h

/-- A head, and what comes after it up to one of some marks. -/
def blockMatch (mark : List Char) (stops : List (List Char)) (text : List Char) :
    Option ((List Char × List Char) × List Char) :=
  (readHead mark text).map (fun (name, rest) => ((name, (upTo stops rest).1), (upTo stops rest).2))

theorem blockMatch_some {mark text : List Char} {stops : List (List Char)}
    {block : List Char × List Char} {rest : List Char}
    (h : blockMatch mark stops text = some (block, rest)) :
    ∃ mid after, text = mark ++ mid ++ after ∧ '<' ∉ mid ∧ rest = (upTo stops after).2 := by
  obtain ⟨⟨name, after⟩, hhead, heq⟩ := Option.map_eq_some_iff.mp h
  cases heq
  obtain ⟨mid, htext, hmid⟩ := readHead_some hhead
  exact ⟨mid, after, htext, hmid, rfl⟩

/-- A block whose mark is a `<` and a word. -/
def blockPattern (word : List Char) (stops : List (List Char)) :
    Pattern Char (List Char × List Char) where
  match? := blockMatch ('<' :: word) stops
  shorter := by
    intro text block rest h
    obtain ⟨mid, after, rfl, -, rfl⟩ := blockMatch_some h
    have hle := @upTo_length _ _ stops after
    simp only [List.length_append, List.length_cons]
    omega

/-- No block starts inside another of its kind. -/
theorem blockPattern_apart {word : List Char} {stops : List (List Char)} (hword : '<' ∉ word)
    (hstop : '<' :: word ∈ stops) : (blockPattern word stops).Apart := by
  have hstart {text : List Char} {block : List Char × List Char} {rest : List Char}
      (h : blockMatch ('<' :: word) stops text = some (block, rest)) : '<' :: word <+: text := by
    obtain ⟨mid, after, htext, -⟩ := blockMatch_some h
    rw [htext, List.append_assoc]
    exact List.prefix_append _ _
  intro c text block rest h
  obtain ⟨mid, after, htext, hmid, rfl⟩ := blockMatch_some h
  rw [List.append_assoc, List.cons_append, List.cons_eq_cons] at htext
  rw [htext.2, ← List.append_assoc, Pattern.everywhere_skip]
  · exact (Pattern.everywhere_upTo after fun hfound => ⟨_, hstop, hstart hfound⟩).symm
  · intro d hd text
    show blockMatch ('<' :: word) stops (d :: text) = none
    cases hfound : blockMatch ('<' :: word) stops (d :: text) with
    | none => rfl
    | some found =>
      obtain ⟨block, rest⟩ := found
      have hd' := (List.cons_prefix_cons.mp (hstart hfound)).1
      subst hd'
      exact absurd (List.mem_append.mp hd) (not_or.mpr ⟨hword, hmid⟩)

/-- `<function=NAME>`, up to the next one, its end tag or the end. -/
def functionPattern : Pattern Char (List Char × List Char) :=
  blockPattern functionOpen.tail [functionOpen, functionClose]

/-- `<parameter=KEY>`, up to the next mark or the end. The blanks around the value, which the source's
pattern leaves out, are dropped when it is coerced. -/
def parameterPattern : Pattern Char (List Char × List Char) :=
  blockPattern parameterOpen.tail [parameterOpen, parameterClose, functionOpen, functionClose]

theorem functionPattern_apart : functionPattern.Apart :=
  blockPattern_apart (by decide) (by decide)

theorem parameterPattern_apart : parameterPattern.Apart :=
  blockPattern_apart (by decide) (by decide)

/-- `/<function=[a-zA-Z_]/.test(content)` -/
def hasFunctionStyleToolCalls : List Char → Bool
  | [] => false
  | c :: text =>
    (functionOpen <+: c :: text && ((c :: text).drop functionOpen.length).head?.any isNameStart) ||
      hasFunctionStyleToolCalls text

/-- A function block is markup that is tested for. -/
theorem hasFunctionStyleToolCalls_of_block {text : List Char}
    (h : functionPattern.everywhere text ≠ []) : hasFunctionStyleToolCalls text = true := by
  induction text with
  | nil => exact absurd rfl h
  | cons c text ih =>
    unfold hasFunctionStyleToolCalls
    rw [Bool.or_eq_true]
    cases hfound : functionPattern.match? (c :: text) with
    | none =>
      rw [Pattern.everywhere, hfound] at h
      exact Or.inr (ih h)
    | some found =>
      left
      obtain ⟨⟨name, after⟩, hhead, -⟩ := Option.map_eq_some_iff.mp hfound
      unfold readHead at hhead
      split at hhead
      · rename_i hmark
        have hdrop : ('<' :: functionOpen.tail).length = functionOpen.length := rfl
        rw [hdrop] at hhead
        split at hhead
        · cases hhead
        · rename_i d rest hrest
          split at hhead
          · rename_i hstart
            rw [hrest]
            simp only [Bool.and_eq_true, decide_eq_true_eq]
            exact ⟨hmark, hstart⟩
          · cases hhead
      · cases hhead

end Haruspex.ToolCalls
