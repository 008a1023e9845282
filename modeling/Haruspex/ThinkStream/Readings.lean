import Haruspex.ThinkStream.Model
import Mathlib.Data.List.Basic

/-! The two readings of reasoning (`markdown.ts`): a scan from left to right, and two replacements one after the
other. -/
namespace Haruspex.ThinkStream
open Marks
set_option autoImplicit false

/-! ## Taking the blocks out -/

/-- `replace(/<think>[\s\S]*?<\/think>/g, '')`: at each place, a block up to the first tag that closes it. -/
def dropClosed : Text → Text
  | [] => []
  | c :: text =>
    if thinkOpen <+: c :: text then
      match _hcut : cut thinkClose ((c :: text).drop thinkOpen.length) with
      | some (_, rest) => dropClosed rest
      | none => c :: dropClosed text
    else c :: dropClosed text
termination_by text => text.length
decreasing_by
  · have hdrop := congrArg List.length (cut_some _hcut)
    have hclose : thinkClose.length = 8 := rfl
    simp only [List.length_drop, List.length_append, List.length_cons] at hdrop ⊢
    omega
  · simp
  · simp

/-- `replace(/<think>[\s\S]*$/, '')` -/
def dropOpen (text : Text) : Text :=
  match cut thinkOpen text with
  | some (before, _) => before
  | none => text

def stripThinkBlocks (text : Option Text) : Text := dropOpen (dropClosed (text.getD []))

/-! ## What is promised -/

/-- Answer text and a block, so many times, answer text, and a block that does not end. -/
structure Blocks where
  closed : List (Text × Text)
  last : Text
  unclosed : Option Text

namespace Blocks

def text (blocks : Blocks) : Text :=
  blocks.closed.flatMap (fun block => block.1 ++ thinkOpen ++ block.2 ++ thinkClose) ++ blocks.last ++
    (blocks.unclosed.map (fun body => thinkOpen ++ body)).getD []

/-- What stands outside the blocks. -/
def answer (blocks : Blocks) : Text := blocks.closed.flatMap Prod.fst ++ blocks.last

/-- What stands in them. -/
def reasoning (blocks : Blocks) : Text := blocks.closed.flatMap Prod.snd ++ blocks.unclosed.getD []

/-- Each tag is the first there is. -/
structure Proper (blocks : Blocks) : Prop where
  before : ∀ block ∈ blocks.closed, ¬ thinkOpen <:+: block.1
  inside : ∀ block ∈ blocks.closed, ¬ thinkClose <:+: block.2
  last : ¬ thinkOpen <:+: blocks.last
  unclosed : ∀ body, blocks.unclosed = some body → ¬ thinkClose <:+: body

end Blocks

/-- The two readings agree, and the scan takes the text apart without losing or doubling anything. -/
structure ReadAlike (text : Option Text) : Prop where
  answer : (splitThinkChannels text).answer = stripThinkBlocks text
  parts : ∃ blocks : Blocks, blocks.text = text.getD [] ∧ blocks.answer = (splitThinkChannels text).answer ∧
    blocks.reasoning = (splitThinkChannels text).reasoning

/-! ## The scan -/

theorem splitFrom_blocks (blocks : Blocks) (h : blocks.Proper) :
    splitFrom blocks.text = ⟨blocks.reasoning, blocks.answer⟩ := by
  obtain ⟨closed, last, unclosed⟩ := blocks
  unfold Blocks.text Blocks.answer Blocks.reasoning
  induction closed with
  | nil =>
    cases unclosed with
    | none => simpa using splitFrom_plain h.last
    | some body => simpa using splitFrom_unclosed h.last (h.unclosed body rfl)
  | cons block closed ih =>
    have hrest := ih ⟨fun b hb => h.before b (List.mem_cons_of_mem block hb),
      fun b hb => h.inside b (List.mem_cons_of_mem block hb), h.last, h.unclosed⟩
    have hfirst := @splitFrom_closed _ _ (closed.flatMap
        (fun block => block.1 ++ thinkOpen ++ block.2 ++ thinkClose) ++ last ++
          (unclosed.map (fun body => thinkOpen ++ body)).getD [])
      (h.before block List.mem_cons_self) (h.inside block List.mem_cons_self)
    rw [hrest] at hfirst
    simpa using hfirst

theorem exists_blocks (text : Text) : ∃ blocks : Blocks, blocks.Proper ∧ blocks.text = text := by
  induction text using splitFrom.induct with
  | case1 text h =>
    refine ⟨⟨[], text, none⟩, ⟨List.forall_mem_nil _, List.forall_mem_nil _, cut_eq_none_iff.mp h, ?_⟩, ?_⟩
    · rintro body ⟨⟩
    · simp [Blocks.text]
  | case2 text before body h h' =>
    refine ⟨⟨[], before, some body⟩,
      ⟨List.forall_mem_nil _, List.forall_mem_nil _, cut_first (by decide) h, ?_⟩, ?_⟩
    · intro other hother
      cases hother
      exact cut_eq_none_iff.mp h'
    · rw [cut_some h]
      simp [Blocks.text]
  | case3 text before body h inside rest h' ih =>
    obtain ⟨⟨closed, last, unclosed⟩, hproper, hrest⟩ := ih
    refine ⟨⟨(before, inside) :: closed, last, unclosed⟩, ⟨?_, ?_, hproper.last, hproper.unclosed⟩, ?_⟩
    · exact List.forall_mem_cons.mpr ⟨cut_first (by decide) h, hproper.before⟩
    · exact List.forall_mem_cons.mpr ⟨cut_first (by decide) h', hproper.inside⟩
    · rw [cut_some h, cut_some h', ← hrest]
      simp [Blocks.text]

/-! ## The replacements -/

theorem dropClosed_cons {c : Char} {text : Text} (h : ¬ thinkOpen <+: c :: text) :
    dropClosed (c :: text) = c :: dropClosed text := by
  rw [dropClosed, if_neg h]

/-- What has no open tag stays, up to where one may start. -/
theorem dropClosed_append {before after : Text} (h : ¬ thinkOpen <:+: before) :
    dropClosed (before ++ '<' :: after) = before ++ dropClosed ('<' :: after) := by
  induction before with
  | nil => rfl
  | cons c before ih =>
    rw [List.infix_cons_iff, not_or] at h
    have hhere : ¬ thinkOpen <+: c :: (before ++ '<' :: after) := fun hopens =>
      h.1 (prefix_of_prefix_append (by decide) (List.cons_ne_nil c before) hopens)
    rw [List.cons_append, dropClosed_cons hhere, ih h.2]
    rfl

theorem dropClosed_plain {text : Text} (h : ¬ thinkOpen <:+: text) : dropClosed text = text := by
  induction text with
  | nil => rw [dropClosed]
  | cons c text ih =>
    rw [List.infix_cons_iff, not_or] at h
    rw [dropClosed_cons h.1, ih h.2]

theorem dropClosed_unclosed {text : Text} (h : ¬ thinkClose <:+: text) : dropClosed text = text := by
  induction text with
  | nil => rw [dropClosed]
  | cons c text ih =>
    have hdrop : cut thinkClose ((c :: text).drop thinkOpen.length) = none :=
      cut_eq_none_iff.mpr fun hinside => h (hinside.trans (List.drop_suffix _ _).isInfix)
    have hrest := ih fun hinside => h (List.infix_cons_iff.mpr (.inr hinside))
    rw [dropClosed]
    split
    · split
      · rename_i hsome
        rw [hdrop] at hsome
        cases hsome
      · rw [hrest]
    · rw [hrest]

/-- A block at the start goes. -/
theorem dropClosed_block {inside rest : Text} (h : ¬ thinkClose <:+: inside) :
    dropClosed (thinkOpen ++ (inside ++ thinkClose ++ rest)) = dropClosed rest := by
  have hcut : cut thinkClose (inside ++ thinkClose ++ rest) = some (inside, rest) := cut_append (by decide) h
  have hopen : thinkOpen ++ (inside ++ thinkClose ++ rest) =
      '<' :: (['t', 'h', 'i', 'n', 'k', '>'] ++ (inside ++ thinkClose ++ rest)) := rfl
  have hopens : thinkOpen <+: '<' :: (['t', 'h', 'i', 'n', 'k', '>'] ++ (inside ++ thinkClose ++ rest)) :=
    List.prefix_append thinkOpen (inside ++ thinkClose ++ rest)
  rw [hopen, dropClosed, if_pos hopens]
  have hdrop : ('<' :: (['t', 'h', 'i', 'n', 'k', '>'] ++ (inside ++ thinkClose ++ rest))).drop thinkOpen.length =
      inside ++ thinkClose ++ rest := rfl
  split
  · rename_i before' rest' hsome
    rw [hdrop, hcut] at hsome
    cases hsome
    rfl
  · rename_i hnone
    rw [hdrop, hcut] at hnone
    cases hnone

theorem dropClosed_blocks (blocks : Blocks) (h : blocks.Proper) :
    dropClosed blocks.text =
      blocks.answer ++ (blocks.unclosed.map (fun body => thinkOpen ++ body)).getD [] := by
  obtain ⟨closed, last, unclosed⟩ := blocks
  unfold Blocks.text Blocks.answer
  dsimp only
  induction closed with
  | nil =>
    rw [List.flatMap_nil, List.flatMap_nil, List.nil_append]
    cases unclosed with
    | none =>
      rw [Option.map_none, Option.getD_none, List.append_nil]
      exact dropClosed_plain h.last
    | some body =>
      have hbody : ¬ thinkClose <:+: thinkOpen ++ body := by
        intro hinside
        refine h.unclosed body rfl ?_
        simpa [thinkOpen, thinkClose, List.infix_cons_iff] using hinside
      have hopen : thinkOpen ++ body = '<' :: (['t', 'h', 'i', 'n', 'k', '>'] ++ body) := rfl
      rw [Option.map_some, Option.getD_some, hopen, dropClosed_append h.last, ← hopen, dropClosed_unclosed hbody]
  | cons block closed ih =>
    have hrest := ih ⟨fun b hb => h.before b (List.mem_cons_of_mem block hb),
      fun b hb => h.inside b (List.mem_cons_of_mem block hb), h.last, h.unclosed⟩
    have hblock := @dropClosed_block _ (closed.flatMap
        (fun block => block.1 ++ thinkOpen ++ block.2 ++ thinkClose) ++ last ++
          (unclosed.map (fun body => thinkOpen ++ body)).getD []) (h.inside block List.mem_cons_self)
    have hbefore := @dropClosed_append _ (['t', 'h', 'i', 'n', 'k', '>'] ++ (block.2 ++ thinkClose ++
      (closed.flatMap (fun block => block.1 ++ thinkOpen ++ block.2 ++ thinkClose) ++ last ++
        (unclosed.map (fun body => thinkOpen ++ body)).getD []))) (h.before block List.mem_cons_self)
    change dropClosed (block.1 ++ (thinkOpen ++ _)) = block.1 ++ dropClosed (thinkOpen ++ _) at hbefore
    rw [hblock, hrest] at hbefore
    simpa only [List.flatMap_cons, List.append_assoc] using hbefore

/-- What comes ahead of the first open tag that is left. -/
theorem dropOpen_append {answer tail : Text} (htail : tail = [] ∨ ∃ body, tail = thinkOpen ++ body) :
    dropOpen (answer ++ tail) = answer ↔ ¬ thinkOpen <:+: answer := by
  constructor
  · intro heq ⟨front, back, hsplit⟩
    unfold dropOpen at heq
    have hinside : thinkOpen <:+: answer ++ tail := ⟨front, back ++ tail, by rw [← hsplit]; simp⟩
    cases hcut : cut thinkOpen (answer ++ tail) with
    | none => exact cut_eq_none_iff.mp hcut hinside
    | some parts =>
      obtain ⟨before, after⟩ := parts
      rw [hcut] at heq
      have hbefore : before = answer := heq
      have hlater : front.length < before.length := by
        have hopen : thinkOpen.length = 7 := rfl
        have hlength := congrArg List.length hsplit
        simp only [List.length_append] at hlength
        rw [hbefore]
        omega
      refine cut_earliest hcut hlater ⟨back ++ tail, ?_⟩
      rw [← hsplit, List.append_assoc, List.append_assoc, List.drop_left]
  · intro hnone
    unfold dropOpen
    obtain rfl | ⟨body, rfl⟩ := htail
    · rw [List.append_nil, cut_eq_none_iff.mpr hnone]
    · have hcut : cut thinkOpen (answer ++ thinkOpen ++ body) = some (answer, body) := cut_append (by decide) hnone
      rw [← List.append_assoc, hcut]

theorem strip_blocks_iff (blocks : Blocks) (h : blocks.Proper) :
    dropOpen (dropClosed blocks.text) = blocks.answer ↔ ¬ thinkOpen <:+: blocks.answer := by
  rw [dropClosed_blocks blocks h]
  refine dropOpen_append ?_
  cases blocks.unclosed with
  | none => exact .inl rfl
  | some body => exact .inr ⟨body, rfl⟩

/-! ## Both readings -/

/-- The two readings agree just where no open tag comes together from what stands around closed blocks. -/
theorem readAlike_iff (text : Option Text) :
    ReadAlike text ↔
      ∀ blocks : Blocks, blocks.Proper → blocks.text = text.getD [] → ¬ thinkOpen <:+: blocks.answer := by
  constructor
  · intro halike blocks hproper htext
    have hanswer := halike.answer
    unfold splitThinkChannels stripThinkBlocks at hanswer
    rw [← htext, splitFrom_blocks blocks hproper] at hanswer
    exact (strip_blocks_iff blocks hproper).mp hanswer.symm
  · intro hnone
    obtain ⟨blocks, hproper, htext⟩ := exists_blocks (text.getD [])
    have hsplit := splitFrom_blocks blocks hproper
    rw [htext] at hsplit
    refine ⟨?_, blocks, htext, ?_, ?_⟩
    · unfold splitThinkChannels stripThinkBlocks
      rw [hsplit, ← htext]
      exact ((strip_blocks_iff blocks hproper).mpr (hnone blocks hproper htext)).symm
    · unfold splitThinkChannels
      rw [hsplit]
    · unfold splitThinkChannels
      rw [hsplit]

/-- Taking the block out of `<thi<think>x</think>nk>y` leaves an open tag, and the second replacement takes the rest. -/
theorem readApart : ¬ ∀ text, ReadAlike text := by
  intro h
  have hproper : Blocks.Proper ⟨[("<thi".toList, "x".toList)], "nk>y".toList, none⟩ :=
    ⟨by decide, by decide, by decide, nofun⟩
  have htext : Blocks.text ⟨[("<thi".toList, "x".toList)], "nk>y".toList, none⟩ =
      "<thi<think>x</think>nk>y".toList := by decide
  have hanswer := (h (some "<thi<think>x</think>nk>y".toList)).answer
  unfold splitThinkChannels stripThinkBlocks at hanswer
  rw [Option.getD_some, ← htext, splitFrom_blocks _ hproper] at hanswer
  exact (strip_blocks_iff _ hproper).mp hanswer.symm (by decide)

end Haruspex.ThinkStream
