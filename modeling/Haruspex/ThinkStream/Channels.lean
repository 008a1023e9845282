import Haruspex.ThinkStream.Model

/-! What streamed reasoning and answer text come to, once folded into one text or assembled into a
response and taken apart again (`agent/thinkStream.ts`, `streamAssembly.ts`, `markdown.ts`). -/
namespace Haruspex.ThinkStream
open Marks
set_option autoImplicit false

/-! ## What is promised -/

def thoughts (deltas : List Delta) : Text := deltas.flatMap Delta.thought

def said (deltas : List Delta) : Text := deltas.flatMap Delta.said

/-- The same text, but for one blank line put in. -/
def UpToBlankLine (answer content : Text) : Prop :=
  answer = content ∨
    ∃ before after, content = before ++ after ∧ answer = before ++ blankLine ++ after

/-- A text that the reasoning and the answer of some deltas can be read from. -/
structure Carries (deltas : List Delta) (text : Option Text) : Prop where
  reasoning : (splitThinkChannels text).reasoning = thoughts deltas
  answer : UpToBlankLine (splitThinkChannels text).answer (said deltas)

/-- Both ways to fold the deltas, and the response assembled from them, carry the same. -/
structure KeptApart (deltas : List Delta) : Prop where
  scanned : Carries deltas (some (fold deltas none))
  remembered : Carries deltas (some (fold deltas (some createThinkStreamState)))
  assembled : Carries deltas (assembled deltas)

/-! ## Pieces -/

/-- The texts of the deltas that are not empty, one after another. -/
inductive Piece where
  | thought (text : Text)
  | said (text : Text)

namespace Piece

def text : Piece → Text
  | .thought text => text
  | .said text => text

def ofThought : Piece → Text
  | .thought text => text
  | .said _ => []

def ofAnswer : Piece → Text
  | .thought _ => []
  | .said text => text

end Piece

def Delta.pieces (delta : Delta) : List Piece :=
  [Piece.thought delta.thought, Piece.said delta.said].filter (fun piece => piece.text ≠ [])

def pieces (deltas : List Delta) : List Piece := deltas.flatMap Delta.pieces

abbrev Acc := Text × Option ThinkStreamState

def appendPiece (acc : Acc) : Piece → Acc
  | .thought text => appendReasoning acc.1 text acc.2
  | .said text => appendContent acc.1 text acc.2

theorem appendStreamDelta_eq (acc : Acc) (delta : Delta) :
    appendStreamDelta acc.1 delta acc.2 = delta.pieces.foldl appendPiece acc := by
  unfold Delta.pieces
  by_cases hthought : delta.thought = [] <;> by_cases hsaid : delta.said = [] <;>
    simp [appendStreamDelta, appendReasoning, appendContent, appendPiece, Piece.text, hthought, hsaid]

theorem fold_eq (deltas : List Delta) (state : Option ThinkStreamState) :
    fold deltas state = ((pieces deltas).foldl appendPiece ([], state)).1 := by
  unfold fold pieces
  rw [List.foldl_flatMap]
  simp only [appendStreamDelta_eq]

theorem thoughts_eq (deltas : List Delta) : thoughts deltas = (pieces deltas).flatMap Piece.ofThought := by
  unfold thoughts pieces
  rw [List.flatMap_assoc]
  congr 1
  funext delta
  unfold Delta.pieces
  by_cases hthought : delta.thought = [] <;> by_cases hsaid : delta.said = [] <;>
    simp [Piece.text, Piece.ofThought, hthought, hsaid]

theorem said_eq (deltas : List Delta) : said deltas = (pieces deltas).flatMap Piece.ofAnswer := by
  unfold said pieces
  rw [List.flatMap_assoc]
  congr 1
  funext delta
  unfold Delta.pieces
  by_cases hthought : delta.thought = [] <;> by_cases hsaid : delta.said = [] <;>
    simp [Piece.text, Piece.ofAnswer, hthought, hsaid]

/-! ## The fold, stage by stage -/

theorem opened_append {buf : Text} {state : Option ThinkStreamState} (text : Text)
    (h : opened buf state = true) : opened (buf ++ text) state = true := by
  cases state with
  | some s => exact h
  | none =>
    unfold opened at *
    rw [decide_eq_true_eq] at *
    exact h.trans (List.prefix_append buf text).isInfix

theorem closed_append {buf : Text} {state : Option ThinkStreamState} (text : Text)
    (h : closed buf state = true) : closed (buf ++ text) state = true := by
  cases state with
  | some s => exact h
  | none =>
    unfold closed at *
    rw [decide_eq_true_eq] at *
    exact h.trans (List.prefix_append buf text).isInfix

/-- Ahead of all reasoning, the answer is added as it comes. -/
theorem foldl_said {buf : Text} {state : Option ThinkStreamState} (lead : List Text)
    (h : opened (buf ++ lead.flatten) state = false) :
    (lead.map Piece.said).foldl appendPiece (buf, state) = (buf ++ lead.flatten, state) := by
  induction lead generalizing buf with
  | nil => simp
  | cons text lead ih =>
    rw [List.flatten_cons, ← List.append_assoc] at *
    have hbuf : opened buf state = false := by
      rw [Bool.eq_false_iff]
      intro hopen
      rw [List.append_assoc, opened_append _ hopen] at h
      cases h
    have hstep : appendPiece (buf, state) (.said text) = (buf ++ text, state) := by
      simp only [appendPiece, appendContent, hbuf]
      split <;> simp_all
    rw [List.map_cons, List.foldl_cons, hstep, ih h]

/-- In a block, reasoning is added as it comes. -/
theorem foldl_thought {buf : Text} {state : Option ThinkStreamState} (more : List Text)
    (h : opened buf state = true) :
    (more.map Piece.thought).foldl appendPiece (buf, state) = (buf ++ more.flatten, state) := by
  induction more generalizing buf with
  | nil => simp
  | cons text more ih =>
    have hstep : appendPiece (buf, state) (.thought text) = (buf ++ text, state) := by
      simp only [appendPiece, appendReasoning, h]
      split <;> simp_all
    rw [List.map_cons, List.foldl_cons, hstep, ih (opened_append text h), List.flatten_cons,
      List.append_assoc]

/-- After a block, all is added as it comes. -/
theorem foldl_closed {buf : Text} {state : Option ThinkStreamState} (late : List Piece)
    (hopen : opened buf state = true) (hclose : closed buf state = true) :
    late.foldl appendPiece (buf, state) = (buf ++ late.flatMap Piece.text, state) := by
  induction late generalizing buf with
  | nil => simp
  | cons piece late ih =>
    have hstep : appendPiece (buf, state) piece = (buf ++ piece.text, state) := by
      cases piece with
      | thought text =>
        simp only [appendPiece, appendReasoning, hopen, Piece.text]
        split <;> simp_all
      | said text =>
        simp only [appendPiece, appendContent, hopen, hclose, Piece.text]
        split <;> simp_all
    rw [List.foldl_cons, hstep, ih (opened_append _ hopen) (closed_append _ hclose), List.flatMap_cons,
      List.append_assoc]

/-- The first reasoning opens the block. -/
theorem foldl_open {buf first : Text} {state : Option ThinkStreamState} (more : List Text)
    (hopen : opened buf state = false) (hfirst : first ≠ []) :
    ((first :: more).map Piece.thought).foldl appendPiece (buf, state) =
      (buf ++ thinkOpen ++ (first :: more).flatten,
        state.map (fun s => { s with sawThinkOpen := true })) := by
  have hstep : appendPiece (buf, state) (.thought first) =
      (buf ++ thinkOpen ++ first, state.map (fun s => { s with sawThinkOpen := true })) := by
    simp [appendPiece, appendReasoning, hopen, hfirst]
  have hopened : opened (buf ++ thinkOpen ++ first)
      (state.map (fun s => { s with sawThinkOpen := true })) = true := by
    cases state with
    | some s => rfl
    | none => simpa [opened] using (⟨buf, first, rfl⟩ : thinkOpen <:+: buf ++ thinkOpen ++ first)
  rw [List.map_cons, List.foldl_cons, hstep, foldl_thought more hopened, List.flatten_cons,
    List.append_assoc _ first]

/-- The first answer text after it closes it. -/
theorem foldl_close {buf first : Text} {state : Option ThinkStreamState} (late : List Piece)
    (hopen : opened buf state = true) (hclose : closed buf state = false) (hfirst : first ≠ []) :
    ((Piece.said first :: late).foldl appendPiece (buf, state)).1 =
      buf ++ thinkClose ++ blankLine ++ first ++ late.flatMap Piece.text := by
  have hstep : appendPiece (buf, state) (.said first) =
      (buf ++ thinkClose ++ blankLine ++ first,
        state.map (fun s => { s with sawThinkClose := true })) := by
    simp [appendPiece, appendContent, hopen, hclose, hfirst]
  have hopened : opened (buf ++ thinkClose ++ blankLine ++ first)
      (state.map (fun s => { s with sawThinkClose := true })) = true := by
    cases state with
    | some s => exact hopen
    | none =>
      simp only [List.append_assoc]
      exact @opened_append _ none _ hopen
  have hclosed : closed (buf ++ thinkClose ++ blankLine ++ first)
      (state.map (fun s => { s with sawThinkClose := true })) = true := by
    cases state with
    | some s => rfl
    | none =>
      have hinside : thinkClose <:+: buf ++ thinkClose ++ (blankLine ++ first) := ⟨buf, _, rfl⟩
      simpa [closed] using hinside
  rw [List.foldl_cons, hstep, foldl_closed late hopened hclosed]

/-! ## The pieces in order -/

/-- Answer texts, then reasoning, then answer texts again, and what comes when more reasoning does. -/
structure Parts where
  lead : List Text
  block : List Text
  rest : List Text
  late : List Piece

def Parts.pieces (parts : Parts) : List Piece :=
  parts.lead.map Piece.said ++ parts.block.map Piece.thought ++ parts.rest.map Piece.said ++ parts.late

theorem exists_said (ps : List Piece) :
    ∃ (texts : List Text) (rest : List Piece), ps = texts.map Piece.said ++ rest ∧
      ∀ text more, rest ≠ .said text :: more := by
  induction ps with
  | nil => exact ⟨[], [], rfl, fun _ _ => (nomatch ·)⟩
  | cons piece ps ih =>
    cases piece with
    | thought text => exact ⟨[], _, rfl, fun _ _ => (nomatch ·)⟩
    | said text =>
      obtain ⟨texts, rest, rfl, hrest⟩ := ih
      exact ⟨text :: texts, rest, rfl, hrest⟩

theorem exists_thought (ps : List Piece) :
    ∃ (texts : List Text) (rest : List Piece), ps = texts.map Piece.thought ++ rest ∧
      ∀ text more, rest ≠ .thought text :: more := by
  induction ps with
  | nil => exact ⟨[], [], rfl, fun _ _ => (nomatch ·)⟩
  | cons piece ps ih =>
    cases piece with
    | said text => exact ⟨[], _, rfl, fun _ _ => (nomatch ·)⟩
    | thought text =>
      obtain ⟨texts, rest, rfl, hrest⟩ := ih
      exact ⟨text :: texts, rest, rfl, hrest⟩

/-- What is late comes after a block and an answer, and starts with reasoning. -/
theorem exists_parts (ps : List Piece) :
    ∃ parts : Parts, ps = parts.pieces ∧
      (parts.late = [] ∨ parts.block ≠ [] ∧ parts.rest ≠ [] ∧
        ∃ text more, parts.late = .thought text :: more) := by
  obtain ⟨lead, ps₁, rfl, h₁⟩ := exists_said ps
  obtain ⟨block, ps₂, rfl, h₂⟩ := exists_thought ps₁
  obtain ⟨rest, late, rfl, h₃⟩ := exists_said ps₂
  refine ⟨⟨lead, block, rest, late⟩, by simp [Parts.pieces], ?_⟩
  cases late with
  | nil => exact .inl rfl
  | cons piece late =>
    cases piece with
    | said text => exact absurd rfl (h₃ text late)
    | thought text =>
      have hrest : rest ≠ [] := by
        rintro rfl
        exact h₂ text late rfl
      have hblock : block ≠ [] := by
        rintro rfl
        cases rest with
        | nil => exact hrest rfl
        | cons first rest => exact h₁ first _ rfl
      exact .inr ⟨hblock, hrest, text, late, rfl⟩

end Haruspex.ThinkStream
