import Haruspex.Library.Marks

/-! Streamed reasoning and answer text: folded into one text (`agent/thinkStream.ts`), assembled into a
response (`streamAssembly.ts`) and taken apart again (`markdown.ts`). -/
namespace Haruspex.ThinkStream
open Marks
set_option autoImplicit false

abbrev Text := List Char

def thinkOpen : Text := ['<', 't', 'h', 'i', 'n', 'k', '>']

def thinkClose : Text := ['<', '/', 't', 'h', 'i', 'n', 'k', '>']

def blankLine : Text := ['\n', '\n']

/-! ## Folding deltas -/

structure Delta where
  reasoningContent : Option Text
  reasoning : Option Text
  content : Option Text

/-- `delta.reasoning_content ?? delta.reasoning`, where an empty text is as good as none. -/
def Delta.thought (delta : Delta) : Text := (delta.reasoningContent.or delta.reasoning).getD []

def Delta.said (delta : Delta) : Text := delta.content.getD []

structure ThinkStreamState where
  sawThinkOpen : Bool
  sawThinkClose : Bool

def createThinkStreamState : ThinkStreamState := ⟨false, false⟩

def opened (buf : Text) : Option ThinkStreamState → Bool
  | some state => state.sawThinkOpen
  | none => thinkOpen <:+: buf

def closed (buf : Text) : Option ThinkStreamState → Bool
  | some state => state.sawThinkClose
  | none => thinkClose <:+: buf

def appendReasoning (buf reasoning : Text) (state : Option ThinkStreamState) :
    Text × Option ThinkStreamState :=
  if reasoning = [] then (buf, state)
  else if opened buf state then (buf ++ reasoning, state)
  else (buf ++ thinkOpen ++ reasoning, state.map (fun s => { s with sawThinkOpen := true }))

def appendContent (buf content : Text) (state : Option ThinkStreamState) :
    Text × Option ThinkStreamState :=
  if content = [] then (buf, state)
  else if opened buf state && !closed buf state then
    (buf ++ thinkClose ++ blankLine ++ content, state.map (fun s => { s with sawThinkClose := true }))
  else (buf ++ content, state)

/-- The text so far, with the state it is kept with, if any. -/
def appendStreamDelta (buf : Text) (delta : Delta) (state : Option ThinkStreamState) :
    Text × Option ThinkStreamState :=
  let (buf, state) := appendReasoning buf delta.thought state
  appendContent buf delta.said state

def fold (deltas : List Delta) (state : Option ThinkStreamState) : Text :=
  (deltas.foldl (fun acc delta => appendStreamDelta acc.1 delta acc.2) ([], state)).1

/-! ## The assembled response -/

def combineReasoningAndContent (reasoning content : Option Text) : Option Text :=
  match reasoning, content with
  | some (r :: rs), some (c :: cs) => some (thinkOpen ++ r :: rs ++ thinkClose ++ blankLine ++ c :: cs)
  | some (r :: rs), _ => some (thinkOpen ++ r :: rs ++ thinkClose)
  | _, content => content

structure StreamResponseAssembler where
  content : Text
  reasoning : Text

namespace StreamResponseAssembler

def push (assembler : StreamResponseAssembler) (delta : Delta) : StreamResponseAssembler :=
  ⟨assembler.content ++ delta.said, assembler.reasoning ++ delta.thought⟩

/-- The content of the response. -/
def finish (assembler : StreamResponseAssembler) : Option Text :=
  combineReasoningAndContent
    (if assembler.reasoning = [] then none else some assembler.reasoning)
    (if assembler.content = [] then none else some assembler.content)

end StreamResponseAssembler

def assembled (deltas : List Delta) : Option Text :=
  (deltas.foldl StreamResponseAssembler.push ⟨[], []⟩).finish

/-! ## Taking the two apart -/

structure Channels where
  reasoning : Text
  answer : Text
  deriving DecidableEq

/-- The loop, from some place on. -/
def splitFrom (text : Text) : Channels :=
  match h : cut thinkOpen text with
  | none => ⟨[], text⟩
  | some (before, body) =>
    match h' : cut thinkClose body with
    | none => ⟨body, before⟩
    | some (inside, rest) =>
      let later := splitFrom rest
      ⟨inside ++ later.reasoning, before ++ later.answer⟩
termination_by text.length
decreasing_by
  rw [cut_some h, cut_some h']
  simp only [List.length_append]
  have hopen : thinkOpen.length = 7 := rfl
  omega

def splitThinkChannels (text : Option Text) : Channels := splitFrom (text.getD [])

/-! ## What the loop finds -/

theorem splitFrom_plain {text : Text} (h : ¬ thinkOpen <:+: text) : splitFrom text = ⟨[], text⟩ := by
  unfold splitFrom
  rw [cut_eq_none_iff.mpr h]

/-- A text whose first block does not end. -/
theorem splitFrom_unclosed {before body : Text} (hbefore : ¬ thinkOpen <:+: before)
    (hbody : ¬ thinkClose <:+: body) : splitFrom (before ++ thinkOpen ++ body) = ⟨body, before⟩ := by
  have hopen : cut thinkOpen (before ++ thinkOpen ++ body) = some (before, body) :=
    cut_append (by decide) hbefore
  have hclose := cut_eq_none_iff.mpr hbody
  unfold splitFrom
  split
  · simp_all
  · rename_i before' body' h
    rw [hopen] at h
    cases h
    split <;> simp_all

/-- A text whose first block is around `inside`. -/
theorem splitFrom_closed {before inside rest : Text} (hbefore : ¬ thinkOpen <:+: before)
    (hinside : ¬ thinkClose <:+: inside) :
    splitFrom (before ++ thinkOpen ++ (inside ++ thinkClose ++ rest)) =
      ⟨inside ++ (splitFrom rest).reasoning, before ++ (splitFrom rest).answer⟩ := by
  have hopen : cut thinkOpen (before ++ thinkOpen ++ (inside ++ thinkClose ++ rest)) =
      some (before, inside ++ thinkClose ++ rest) :=
    cut_append (by decide) hbefore
  have hclose : cut thinkClose (inside ++ thinkClose ++ rest) = some (inside, rest) :=
    cut_append (by decide) hinside
  rw [splitFrom]
  split
  · simp_all
  · rename_i before' body' h
    rw [hopen] at h
    cases h
    split
    · simp_all
    · rename_i inside' rest' h'
      rw [hclose] at h'
      cases h'
      rfl

/-- The marks of the blocks are taken out, and nothing else. -/
theorem splitFrom_length (text : Text) :
    (splitFrom text).reasoning.length + (splitFrom text).answer.length ≤ text.length ∧
      (thinkOpen <:+: text →
        (splitFrom text).reasoning.length + (splitFrom text).answer.length + 7 ≤ text.length) := by
  have hopen : thinkOpen.length = 7 := rfl
  induction text using splitFrom.induct with
  | case1 text h =>
    have hplain := cut_eq_none_iff.mp h
    rw [splitFrom_plain hplain]
    simp [hplain]
  | case2 text before body h h' =>
    rw [cut_some h, splitFrom_unclosed (cut_first (by decide) h) (cut_eq_none_iff.mp h')]
    simp only [List.length_append]
    omega
  | case3 text before body h inside rest h' ih =>
    rw [cut_some h, cut_some h', splitFrom_closed (cut_first (by decide) h) (cut_first (by decide) h')]
    have hrest := ih.1
    simp only [List.length_append]
    omega

end Haruspex.ThinkStream
