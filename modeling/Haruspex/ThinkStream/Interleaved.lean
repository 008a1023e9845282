import Haruspex.ThinkStream.Channels

/-! Which interleavings of reasoning and answer text are kept apart. -/
namespace Haruspex.ThinkStream
open Marks
set_option autoImplicit false

/-! ## Lengths -/

theorem UpToBlankLine.length {answer content : Text} (h : UpToBlankLine answer content) :
    content.length ≤ answer.length := by
  obtain rfl | ⟨before, after, rfl, rfl⟩ := h
  · exact Nat.le_refl _
  · simp only [List.length_append]
    omega

theorem blankLine_plain {text : Text} (h : ¬ thinkOpen <:+: text) :
    ¬ thinkOpen <:+: blankLine ++ text := by
  show ¬ thinkOpen <:+: '\n' :: '\n' :: text
  rw [List.infix_cons_iff, List.infix_cons_iff, not_or, not_or]
  exact ⟨by simp [thinkOpen], by simp [thinkOpen], h⟩

/-- Where a block ends that has the end mark in it. -/
theorem exists_close {body : Text} (h : thinkClose <:+: body) :
    ∃ inside rest, body = inside ++ thinkClose ++ rest ∧ ¬ thinkClose <:+: inside := by
  cases hcut : cut thinkClose body with
  | none => exact absurd h (cut_eq_none_iff.mp hcut)
  | some parts => exact ⟨parts.1, parts.2, cut_some hcut, cut_first (by decide) hcut⟩

/-- What no mark was taken out of has none. -/
theorem plain_of_long {text : Text}
    (h : text.length < (splitFrom text).reasoning.length + (splitFrom text).answer.length + 7) :
    ¬ thinkOpen <:+: text := by
  intro hopen
  have hshort := (splitFrom_length text).2 hopen
  omega

/-! ## The assembled response -/

theorem assembled_eq (deltas : List Delta) :
    assembled deltas = (StreamResponseAssembler.mk (said deltas) (thoughts deltas)).finish := by
  have hpush : ∀ assembler : StreamResponseAssembler,
      deltas.foldl StreamResponseAssembler.push assembler =
        ⟨assembler.content ++ said deltas, assembler.reasoning ++ thoughts deltas⟩ := by
    induction deltas with
    | nil => simp [said, thoughts]
    | cons delta deltas ih =>
      intro assembler
      rw [List.foldl_cons, ih]
      simp [StreamResponseAssembler.push, said, thoughts]
  rw [assembled, hpush, List.nil_append, List.nil_append]

/-- The response without reasoning. -/
theorem assembled_plain {deltas : List Delta} (h : thoughts deltas = []) :
    splitThinkChannels (assembled deltas) = splitFrom (said deltas) := by
  rw [assembled_eq, h]
  unfold StreamResponseAssembler.finish splitThinkChannels
  rw [if_pos rfl]
  by_cases hsaid : said deltas = []
  · simp [hsaid, combineReasoningAndContent]
  · simp [hsaid, combineReasoningAndContent]

/-- What follows the reasoning of a response. -/
def afterBlock (content : Text) : Text := if content = [] then [] else blankLine ++ content

theorem assembled_block {deltas : List Delta} (h : thoughts deltas ≠ []) :
    splitThinkChannels (assembled deltas) =
      splitFrom ([] ++ thinkOpen ++ (thoughts deltas ++ thinkClose ++ afterBlock (said deltas))) := by
  rw [assembled_eq]
  unfold StreamResponseAssembler.finish splitThinkChannels afterBlock
  rw [if_neg h]
  obtain ⟨r, rs, hthoughts⟩ := List.exists_cons_of_ne_nil h
  rw [hthoughts]
  by_cases hsaid : said deltas = []
  · simp [hsaid, combineReasoningAndContent]
  · obtain ⟨c, cs, hcontent⟩ := List.exists_cons_of_ne_nil hsaid
    simp [hcontent, combineReasoningAndContent]

theorem carries_assembled_iff (deltas : List Delta) :
    Carries deltas (assembled deltas) ↔
      ¬ thinkOpen <:+: said deltas ∧ ¬ thinkClose <:+: thoughts deltas := by
  by_cases hnone : thoughts deltas = []
  · rw [hnone]
    constructor
    · intro ⟨_, hanswer⟩
      rw [assembled_plain hnone] at hanswer
      have hlong := hanswer.length
      exact ⟨plain_of_long (by omega), by decide⟩
    · intro ⟨hplain, _⟩
      refine ⟨?_, ?_⟩
      · rw [assembled_plain hnone, splitFrom_plain hplain, hnone]
      · rw [assembled_plain hnone, splitFrom_plain hplain]
        exact .inl rfl
  · have hafter : (afterBlock (said deltas)).length ≤ (said deltas).length + 2 := by
      unfold afterBlock
      split
      · simp
      · simp [blankLine]
    constructor
    · intro ⟨hreasoning, hanswer⟩
      rw [assembled_block hnone] at hreasoning hanswer
      have hlong := hanswer.length
      have hclose : ¬ thinkClose <:+: thoughts deltas := by
        intro hin
        obtain ⟨inside, more, heq, hinside⟩ := exists_close hin
        rw [heq, List.append_assoc _ thinkClose, List.append_assoc _ more,
          splitFrom_closed (by decide) hinside] at hreasoning hlong
        have hmark : thinkClose.length = 8 := rfl
        have hlater := congrArg List.length hreasoning
        dsimp only at hlong hlater
        rw [List.nil_append] at hlong
        rw [List.length_append, List.length_append, List.length_append] at hlater
        have hplain : ¬ thinkOpen <:+: more ++ (thinkClose ++ afterBlock (said deltas)) := by
          apply plain_of_long
          rw [List.length_append, List.length_append]
          omega
        rw [splitFrom_plain hplain, List.length_nil] at hlater
        omega
      rw [splitFrom_closed (by decide) hclose] at hreasoning hlong
      simp only [List.append_right_eq_self] at hreasoning
      have hrest : ¬ thinkOpen <:+: afterBlock (said deltas) := by
        apply plain_of_long
        rw [hreasoning]
        simp only [List.nil_append, List.length_nil] at *
        omega
      refine ⟨fun hin => hrest ?_, hclose⟩
      unfold afterBlock
      rw [if_neg (fun hempty => by rw [hempty] at hin; exact absurd hin (by decide))]
      exact hin.trans (List.suffix_append blankLine _).isInfix
    · intro ⟨hplain, hclose⟩
      have hrest : ¬ thinkOpen <:+: afterBlock (said deltas) := by
        unfold afterBlock
        split
        · decide
        · exact blankLine_plain hplain
      have hsplit : splitThinkChannels (assembled deltas) =
          ⟨thoughts deltas, afterBlock (said deltas)⟩ := by
        rw [assembled_block hnone, splitFrom_closed (by decide) hclose, splitFrom_plain hrest,
          List.append_nil, List.nil_append]
      refine ⟨by rw [hsplit], ?_⟩
      rw [hsplit]
      unfold afterBlock
      split
      · rename_i hempty
        exact .inl hempty.symm
      · exact .inr ⟨[], _, rfl, rfl⟩

/-! ## The folded text -/

/-- All answer text comes before the reasoning or after it, and no mark is put together of the pieces
that would be taken for one. -/
structure Separable (deltas : List Delta) (lead block rest : List Text) : Prop where
  order : pieces deltas =
    lead.map Piece.said ++ block.map Piece.thought ++ rest.map Piece.said
  answerPlain : ¬ thinkOpen <:+: said deltas
  reasoningPlain : ¬ thinkClose <:+: thoughts deltas
  leadPlain : block = [] ∨ rest = [] ∨ ¬ thinkClose <:+: lead.flatten

theorem piece_ne_nil {deltas : List Delta} {piece : Piece} (h : piece ∈ pieces deltas) :
    piece.text ≠ [] := by
  obtain ⟨delta, -, hmem⟩ := List.mem_flatMap.mp h
  simpa using (List.mem_filter.mp hmem).2

theorem said_parts {deltas : List Delta} {parts : Parts} (h : pieces deltas = parts.pieces) :
    said deltas = parts.lead.flatten ++ (parts.rest.flatten ++ parts.late.flatMap Piece.ofAnswer) := by
  rw [said_eq, h]
  simp [Parts.pieces, List.flatMap_map, Piece.ofAnswer, List.flatMap_id']

theorem thoughts_parts {deltas : List Delta} {parts : Parts} (h : pieces deltas = parts.pieces) :
    thoughts deltas = parts.block.flatten ++ parts.late.flatMap Piece.ofThought := by
  have hnone (texts : List Text) : texts.flatMap (fun _ => ([] : Text)) = [] := by
    simp [List.flatMap_eq_nil_iff]
  rw [thoughts_eq, h]
  simp [Parts.pieces, List.flatMap_map, Piece.ofThought, List.flatMap_id', hnone]

/-- A block with answer text after it. -/
theorem fold_block {deltas : List Delta} {parts : Parts} (h : pieces deltas = parts.pieces)
    {state : Option ThinkStreamState} (hblock : parts.block ≠ []) (hrest : parts.rest ≠ [])
    (hopen : opened parts.lead.flatten state = false)
    (hclose : closed (parts.lead.flatten ++ thinkOpen ++ parts.block.flatten)
      (state.map (fun s => { s with sawThinkOpen := true })) = false) :
    fold deltas state = parts.lead.flatten ++ thinkOpen ++ (parts.block.flatten ++ thinkClose ++
      (blankLine ++ (parts.rest.flatten ++ parts.late.flatMap Piece.text))) := by
  obtain ⟨lead, block, rest, late⟩ := parts
  obtain ⟨thought, block, rfl⟩ := List.exists_cons_of_ne_nil hblock
  obtain ⟨first, rest, rfl⟩ := List.exists_cons_of_ne_nil hrest
  have hthought : thought ≠ [] :=
    @piece_ne_nil _ (.thought thought) (by rw [h]; simp [Parts.pieces])
  have hfirst : first ≠ [] := @piece_ne_nil _ (.said first) (by rw [h]; simp [Parts.pieces])
  have hopened : opened (lead.flatten ++ thinkOpen ++ (thought :: block).flatten)
      (state.map (fun s => { s with sawThinkOpen := true })) = true := by
    cases state with
    | some s => rfl
    | none => simp [opened]
  dsimp only at hopen hclose ⊢
  rw [fold_eq, h, Parts.pieces]
  dsimp only
  rw [List.append_assoc, List.append_assoc, List.foldl_append, foldl_said lead hopen, List.nil_append,
    List.foldl_append, foldl_open block hopen hthought]
  rw [List.map_cons, List.cons_append, foldl_close _ hopened hclose hfirst]
  simp [List.flatMap_map, Piece.text, List.flatMap_id']

theorem opened_false_of_append {buf text : Text} {state : Option ThinkStreamState}
    (h : opened (buf ++ text) state = false) : opened buf state = false := by
  rw [Bool.eq_false_iff] at *
  exact fun hopen => h (opened_append text hopen)

/-- What can be kept apart is, however the fold knows which marks it has put. -/
theorem Separable.carries {deltas : List Delta} {lead block rest : List Text}
    (h : Separable deltas lead block rest) {state : Option ThinkStreamState}
    (hopen : opened (said deltas) state = false)
    (hclose : block ≠ [] → rest ≠ [] → closed (lead.flatten ++ thinkOpen ++ block.flatten)
      (state.map (fun s => { s with sawThinkOpen := true })) = false) :
    Carries deltas (some (fold deltas state)) := by
  have hparts : pieces deltas = (Parts.mk lead block rest []).pieces := by
    simp [Parts.pieces, h.order]
  have hsaid : said deltas = lead.flatten ++ rest.flatten := by simpa using said_parts hparts
  have hthoughts : thoughts deltas = block.flatten := by simpa using thoughts_parts hparts
  have hopenLead : opened lead.flatten state = false := by
    rw [hsaid] at hopen
    exact opened_false_of_append hopen
  have hlead : ¬ thinkOpen <:+: lead.flatten := fun hin =>
    h.answerPlain (hin.trans (hsaid ▸ (List.prefix_append _ _).isInfix))
  have hrestPlain : ¬ thinkOpen <:+: rest.flatten := fun hin =>
    h.answerPlain (hin.trans (hsaid ▸ (List.suffix_append _ _).isInfix))
  have hblockPlain : ¬ thinkClose <:+: block.flatten := hthoughts ▸ h.reasoningPlain
  by_cases hblock : block = []
  · have hfold : fold deltas state = said deltas := by
      rw [fold_eq, h.order, hblock, List.map_nil, List.append_nil, ← List.map_append,
        foldl_said _ (by rwa [List.flatten_append, List.nil_append, ← hsaid]), List.flatten_append,
        List.nil_append, hsaid]
    have hsplit : splitThinkChannels (some (fold deltas state)) = ⟨[], said deltas⟩ := by
      rw [hfold]
      exact splitFrom_plain h.answerPlain
    exact ⟨by rw [hsplit, hthoughts, hblock]; rfl, by rw [hsplit]; exact .inl rfl⟩
  · by_cases hrest : rest = []
    · obtain ⟨thought, more, rfl⟩ := List.exists_cons_of_ne_nil hblock
      have hthought : thought ≠ [] :=
        @piece_ne_nil _ (.thought thought) (by rw [h.order]; simp)
      have hfold : fold deltas state = lead.flatten ++ thinkOpen ++ (thought :: more).flatten := by
        rw [fold_eq, h.order, hrest, List.map_nil, List.append_nil, List.foldl_append,
          foldl_said lead hopenLead, List.nil_append, foldl_open more hopenLead hthought]
      have hsplit : splitThinkChannels (some (fold deltas state)) =
          ⟨(thought :: more).flatten, lead.flatten⟩ := by
        rw [hfold]
        exact splitFrom_unclosed hlead hblockPlain
      refine ⟨by rw [hsplit, hthoughts], ?_⟩
      rw [hsplit, hsaid, hrest]
      exact .inl (List.append_nil _).symm
    · have hfold := fold_block hparts hblock hrest hopenLead (hclose hblock hrest)
      have hsplit : splitThinkChannels (some (fold deltas state)) =
          ⟨block.flatten, lead.flatten ++ (blankLine ++ rest.flatten)⟩ := by
        rw [hfold, List.flatMap_nil, List.append_nil]
        refine (splitFrom_closed hlead hblockPlain).trans ?_
        rw [splitFrom_plain (blankLine_plain hrestPlain), List.append_nil]
      refine ⟨by rw [hsplit, hthoughts], ?_⟩
      rw [hsplit, hsaid]
      exact .inr ⟨_, _, rfl, (List.append_assoc _ _ _).symm⟩

/-- The start mark does not make an end mark of what it is put between. -/
theorem close_infix_iff {before after : Text} :
    thinkClose <:+: before ++ thinkOpen ++ after ↔ thinkClose <:+: before ∨ thinkClose <:+: after := by
  unfold thinkOpen thinkClose
  rw [List.append_assoc, List.cons_append, Marks.infix_append_iff (by decide)]
  simp [List.infix_cons_iff]

theorem length_text (late : List Piece) :
    (late.flatMap Piece.text).length =
      (late.flatMap Piece.ofAnswer).length + (late.flatMap Piece.ofThought).length := by
  induction late with
  | nil => rfl
  | cons piece late ih =>
    rw [List.flatMap_cons, List.flatMap_cons, List.flatMap_cons, List.length_append, List.length_append,
      List.length_append, ih]
    cases piece with
    | thought text =>
      simp only [Piece.text, Piece.ofAnswer, Piece.ofThought, List.length_nil]
      omega
    | said text =>
      simp only [Piece.text, Piece.ofAnswer, Piece.ofThought, List.length_nil]
      omega

/-- Reasoning that comes late gets into the answer. -/
theorem late_eq_nil {deltas : List Delta} {parts : Parts} (h : pieces deltas = parts.pieces)
    (hanswer : ¬ thinkOpen <:+: said deltas) (hreasoning : ¬ thinkClose <:+: thoughts deltas)
    (hcarries : Carries deltas (some (fold deltas (some createThinkStreamState))))
    (hblock : parts.block ≠ []) (hrest : parts.rest ≠ []) :
    ∀ text more, parts.late ≠ .thought text :: more := by
  intro text more hlate
  have htext : text ≠ [] :=
    @piece_ne_nil _ (.thought text) (by rw [h, Parts.pieces, hlate]; simp)
  have hsaid := said_parts h
  have hthoughts := thoughts_parts h
  have hlead : ¬ thinkOpen <:+: parts.lead.flatten := fun hin =>
    hanswer (hin.trans (hsaid ▸ (List.prefix_append _ _).isInfix))
  have hplain : ¬ thinkClose <:+: parts.block.flatten := fun hin =>
    hreasoning (hin.trans (hthoughts ▸ (List.prefix_append _ _).isInfix))
  have hfold := @fold_block _ _ h (some createThinkStreamState) hblock hrest rfl rfl
  let after := blankLine ++ (parts.rest.flatten ++ parts.late.flatMap Piece.text)
  have hsplit : splitThinkChannels (some (fold deltas (some createThinkStreamState))) =
      ⟨parts.block.flatten ++ (splitFrom after).reasoning,
        parts.lead.flatten ++ (splitFrom after).answer⟩ := by
    rw [hfold]
    exact splitFrom_closed hlead hplain
  have hread := congrArg List.length hcarries.reasoning
  have hlong := hcarries.answer.length
  rw [hsplit, hthoughts] at hread
  rw [hsplit, hsaid] at hlong
  simp only [List.length_append] at hread hlong
  have hafter : after.length =
      2 + (parts.rest.flatten.length + (parts.late.flatMap Piece.text).length) := by
    simp [after, blankLine]
    omega
  rw [length_text] at hafter
  -- All of it is read as answer, so there is no reasoning in it to be read.
  have hall : ¬ thinkOpen <:+: after := plain_of_long (by omega)
  rw [splitFrom_plain hall, List.length_nil, hlate, List.flatMap_cons, List.length_append] at hread
  have hpos := List.length_pos_iff.mpr htext
  simp only [Piece.ofThought] at hread
  omega

/-- The end mark ahead of a block keeps the fold that looks for it from closing the block. -/
theorem lead_plain {deltas : List Delta} {parts : Parts} (h : pieces deltas = parts.pieces)
    (hanswer : ¬ thinkOpen <:+: said deltas) (hcarries : Carries deltas (some (fold deltas none)))
    (hlate : parts.late = []) (hblock : parts.block ≠ []) (hrest : parts.rest ≠ []) :
    ¬ thinkClose <:+: parts.lead.flatten := by
  intro hin
  obtain ⟨lead, block, rest, late⟩ := parts
  dsimp only at *
  obtain ⟨thought, block, rfl⟩ := List.exists_cons_of_ne_nil hblock
  obtain ⟨first, rest, rfl⟩ := List.exists_cons_of_ne_nil hrest
  subst hlate
  have hthought : thought ≠ [] :=
    @piece_ne_nil _ (.thought thought) (by rw [h]; simp [Parts.pieces])
  have hfirst : first ≠ [] := @piece_ne_nil _ (.said first) (by rw [h]; simp [Parts.pieces])
  have hsaid := said_parts h
  have hthoughts := thoughts_parts h
  have hlead : ¬ thinkOpen <:+: lead.flatten := fun hin =>
    hanswer (hin.trans (hsaid ▸ (List.prefix_append _ _).isInfix))
  have hopened : opened (lead.flatten ++ thinkOpen ++ (thought :: block).flatten) none = true := by
    simp [opened]
  have hclosed : closed (lead.flatten ++ thinkOpen ++ (thought :: block).flatten) none = true := by
    rw [List.append_assoc]
    exact closed_append _ (by simpa [closed] using hin)
  let body := (thought :: block).flatten ++ (first :: rest).flatten
  have hfold : fold deltas none = lead.flatten ++ thinkOpen ++ body := by
    rw [fold_eq, h, Parts.pieces]
    dsimp only
    rw [List.append_nil, List.append_assoc, List.foldl_append,
      foldl_said lead (by simpa [opened] using hlead), List.nil_append, List.foldl_append,
      foldl_open block (by simpa [opened] using hlead) hthought, Option.map_none,
      foldl_closed _ hopened hclosed]
    simp [body, List.flatMap_map, Piece.text, List.flatMap_id']
  have hread := congrArg List.length hcarries.reasoning
  have hlong := hcarries.answer.length
  rw [hfold, hthoughts] at hread
  rw [hfold, hsaid] at hlong
  unfold splitThinkChannels at hread hlong
  rw [Option.getD_some] at hread hlong
  have hbody : body.length = (thought :: block).flatten.length + (first :: rest).flatten.length :=
    List.length_append
  have hpos : 0 < (first :: rest).flatten.length := by
    rw [List.flatten_cons, List.length_append]
    have := List.length_pos_iff.mpr hfirst
    omega
  by_cases hend : thinkClose <:+: body
  · obtain ⟨inside, more, heq, hinside⟩ := exists_close hend
    have hmark : thinkClose.length = 8 := rfl
    have hshort := (splitFrom_length more).1
    rw [heq, splitFrom_closed hlead hinside] at hread hlong
    rw [heq] at hbody
    simp only [List.length_append, List.flatMap_nil, List.append_nil] at hread hlong hbody
    omega
  · rw [splitFrom_unclosed hlead hend] at hread
    simp only [List.flatMap_nil, List.append_nil] at hread
    omega

/-- Just what can be kept apart is, by both ways to fold the deltas and in the response. -/
theorem keptApart_iff (deltas : List Delta) :
    KeptApart deltas ↔ ∃ lead block rest, Separable deltas lead block rest := by
  constructor
  · intro h
    obtain ⟨hanswer, hreasoning⟩ := (carries_assembled_iff deltas).mp h.assembled
    obtain ⟨parts, hparts, hlate⟩ := exists_parts (pieces deltas)
    have hnone : parts.late = [] := by
      obtain hlate | ⟨hblock, hrest, text, more, hlate⟩ := hlate
      · exact hlate
      · exact absurd hlate (late_eq_nil hparts hanswer hreasoning h.remembered hblock hrest text more)
    refine ⟨parts.lead, parts.block, parts.rest, ?_, hanswer, hreasoning, ?_⟩
    · rw [hparts, Parts.pieces, hnone, List.append_nil]
    · by_cases hblock : parts.block = []
      · exact .inl hblock
      · by_cases hrest : parts.rest = []
        · exact .inr (.inl hrest)
        · exact .inr (.inr (lead_plain hparts hanswer h.scanned hnone hblock hrest))
  · rintro ⟨lead, block, rest, h⟩
    refine ⟨h.carries ?_ ?_, h.carries rfl (fun _ _ => rfl),
      (carries_assembled_iff deltas).mpr ⟨h.answerPlain, h.reasoningPlain⟩⟩
    · simpa [opened] using h.answerPlain
    · intro hblock hrest
      have hthoughts : thoughts deltas = block.flatten := by
        have hparts : pieces deltas = (Parts.mk lead block rest []).pieces := by
          simp [Parts.pieces, h.order]
        simpa using thoughts_parts hparts
      have hplain : ¬ thinkClose <:+: lead.flatten ++ thinkOpen ++ block.flatten := by
        rw [close_infix_iff, not_or]
        refine ⟨?_, hthoughts ▸ h.reasoningPlain⟩
        obtain hnone | hnone | hlead := h.leadPlain
        · exact absurd hnone hblock
        · exact absurd hnone hrest
        · exact hlead
      simpa [closed] using hplain

/-! ## Reasoning between two answer texts -/

/-- No text of a delta has a mark in it. -/
def TagFree (delta : Delta) : Prop :=
  ∀ mark ∈ [thinkOpen, thinkClose], ¬ mark <:+: delta.thought ∧ ¬ mark <:+: delta.said

instance (delta : Delta) : Decidable (TagFree delta) :=
  inferInstanceAs (Decidable (∀ mark ∈ [thinkOpen, thinkClose], _))

def planTwice : List Delta :=
  [⟨some "plan".toList, none, none⟩, ⟨none, none, some "part one".toList⟩,
    ⟨some " post-hoc".toList, none, none⟩, ⟨none, none, some " part two".toList⟩]

theorem leaked_planTwice : ¬ ∀ deltas : List Delta, (∀ delta ∈ deltas, TagFree delta) → KeptApart deltas := by
  intro h
  have hread := (h planTwice (by decide +kernel)).remembered.reasoning
  have hfold : fold planTwice (some createThinkStreamState) =
      [] ++ thinkOpen ++ ("plan".toList ++ thinkClose ++ "\n\npart one post-hoc part two".toList) := by
    decide +kernel
  rw [hfold] at hread
  unfold splitThinkChannels at hread
  rw [Option.getD_some, splitFrom_closed (by decide) (by decide +kernel),
    splitFrom_plain (by decide +kernel)] at hread
  exact absurd hread (by decide +kernel)

end Haruspex.ThinkStream
