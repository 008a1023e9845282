import Haruspex.ThinkStream.Interleaved

/-! When the state that remembers the tags the fold wrote gives what the scan of the buffer gives. -/
namespace Haruspex.ThinkStream
open Marks
set_option autoImplicit false

/-! ## Where the first reasoning is -/

/-- The answer texts at the start, and what follows them. -/
def answersFirst : List Piece → List Text × List Piece
  | .said text :: ps => (text :: (answersFirst ps).1, (answersFirst ps).2)
  | ps => ([], ps)

/-- The reasoning texts at the start, and what follows them. -/
def thoughtsFirst : List Piece → List Text × List Piece
  | .thought text :: ps => (text :: (thoughtsFirst ps).1, (thoughtsFirst ps).2)
  | ps => ([], ps)

/-- No tag in the model's own text is taken for one that the fold wrote. Without reasoning, no answer text comes while
the answer has an open tag and no closed one. With it, the answer ahead of it has no open tag and, where answer text
follows, neither that answer nor the reasoning up to there has a closed one. -/
def Unmistaken (ps : List Piece) : Prop :=
  let lead := (answersFirst ps).1
  let block := (thoughtsFirst (answersFirst ps).2).1
  let after := (thoughtsFirst (answersFirst ps).2).2
  if block = [] then
    ∀ n < lead.length, thinkOpen <:+: (lead.take n).flatten → thinkClose <:+: (lead.take n).flatten
  else
    ¬ thinkOpen <:+: lead.flatten ∧
      (after ≠ [] → ¬ thinkClose <:+: lead.flatten ∧ ¬ thinkClose <:+: block.flatten)

theorem answersFirst_eq (ps : List Piece) : ps = (answersFirst ps).1.map Piece.said ++ (answersFirst ps).2 := by
  induction ps with
  | nil => rfl
  | cons piece ps ih =>
    cases piece with
    | thought text => rfl
    | said text =>
      unfold answersFirst
      rw [List.map_cons, List.cons_append, ← ih]

theorem thoughtsFirst_eq (ps : List Piece) :
    ps = (thoughtsFirst ps).1.map Piece.thought ++ (thoughtsFirst ps).2 := by
  induction ps with
  | nil => rfl
  | cons piece ps ih =>
    cases piece with
    | said text => rfl
    | thought text =>
      unfold thoughtsFirst
      rw [List.map_cons, List.cons_append, ← ih]

/-- What follows the answer is nothing, or starts with reasoning. -/
theorem answersFirst_rest (ps : List Piece) :
    (answersFirst ps).2 = [] ∨ ∃ text more, (answersFirst ps).2 = .thought text :: more := by
  induction ps with
  | nil => exact .inl rfl
  | cons piece ps ih =>
    cases piece with
    | thought text => exact .inr ⟨text, ps, rfl⟩
    | said text => exact ih

theorem thoughtsFirst_rest (ps : List Piece) :
    (thoughtsFirst ps).2 = [] ∨ ∃ text more, (thoughtsFirst ps).2 = .said text :: more := by
  induction ps with
  | nil => exact .inl rfl
  | cons piece ps ih =>
    cases piece with
    | said text => exact .inr ⟨text, ps, rfl⟩
    | thought text => exact ih

/-! ## The scan, without a block of its own -/

/-- Each piece adds its text, and a tag or none. -/
theorem appendContent_length (buf text : Text) :
    ∃ k, (appendContent buf text none).1.length = buf.length + text.length + 10 * k := by
  unfold appendContent
  split
  · rename_i hempty
    exact ⟨0, by rw [hempty]; simp⟩
  · split
    · refine ⟨1, ?_⟩
      have hclose : thinkClose.length = 8 := rfl
      have hblank : blankLine.length = 2 := rfl
      simp only [List.length_append]
      omega
    · exact ⟨0, by simp⟩

theorem appendContent_scan (buf text : Text) :
    appendPiece (buf, none) (.said text) = ((appendContent buf text none).1, none) := by
  show appendContent buf text none = _
  unfold appendContent
  split
  · rfl
  · split
    · rfl
    · rfl

theorem appendContent_opened {buf : Text} (text : Text) (h : opened buf none = true) :
    opened (appendContent buf text none).1 none = true := by
  unfold appendContent
  split
  · exact h
  · split
    · rw [List.append_assoc, List.append_assoc]
      exact opened_append _ h
    · exact opened_append _ h

/-- Once there is an open tag, the scan writes no other. -/
theorem foldl_scanned_length (ps : List Piece) {buf : Text} (h : opened buf none = true) :
    ∃ k, (ps.foldl appendPiece (buf, none)).1.length =
      buf.length + (ps.flatMap Piece.text).length + 10 * k := by
  induction ps generalizing buf with
  | nil => exact ⟨0, by simp⟩
  | cons piece ps ih =>
    have hstep : ∃ next k, appendPiece (buf, none) piece = (next, none) ∧ opened next none = true ∧
        next.length = buf.length + piece.text.length + 10 * k := by
      cases piece with
      | thought text =>
        refine ⟨buf ++ text, 0, ?_, opened_append text h, by simp [Piece.text]⟩
        simp only [appendPiece, appendReasoning, h]
        split <;> simp_all
      | said text =>
        obtain ⟨k, hk⟩ := appendContent_length buf text
        exact ⟨_, k, appendContent_scan buf text, appendContent_opened text h, hk⟩
    obtain ⟨next, k, hnext, hopen, hlength⟩ := hstep
    obtain ⟨k', hk'⟩ := ih hopen
    refine ⟨k + k', ?_⟩
    rw [List.foldl_cons, hnext, hk', hlength, List.flatMap_cons, List.length_append]
    omega

/-- Answer texts with an open tag among them. -/
theorem foldl_said_opened (lead : List Text) {buf : Text} (h : thinkOpen <:+: buf ++ lead.flatten) :
    ∃ next k, (lead.map Piece.said).foldl appendPiece (buf, none) = (next, none) ∧ opened next none = true ∧
      next.length = buf.length + lead.flatten.length + 10 * k := by
  induction lead generalizing buf with
  | nil =>
    rw [List.flatten_nil, List.append_nil] at h
    exact ⟨buf, 0, rfl, by simpa [opened] using h, by simp⟩
  | cons text lead ih =>
    have hstep : ∃ next k, appendPiece (buf, none) (.said text) = (next, none) ∧
        thinkOpen <:+: next ++ lead.flatten ∧ next.length = buf.length + text.length + 10 * k := by
      obtain ⟨k, hk⟩ := appendContent_length buf text
      refine ⟨(appendContent buf text none).1, k, appendContent_scan buf text, ?_, hk⟩
      by_cases hopen : opened buf none = true
      · have hnext := appendContent_opened text hopen
        unfold opened at hnext
        rw [decide_eq_true_eq] at hnext
        exact hnext.trans (List.prefix_append _ _).isInfix
      · rw [List.flatten_cons, ← List.append_assoc] at h
        unfold appendContent
        split
        · rename_i hempty
          rw [hempty, List.append_nil] at h
          exact h
        · simp only [hopen, Bool.false_and, Bool.false_eq_true, if_false]
          exact h
    obtain ⟨next, k, hnext, hinside, hlength⟩ := hstep
    obtain ⟨last, k', hfold, hopen, hlast⟩ := ih hinside
    refine ⟨last, k + k', ?_, hopen, ?_⟩
    · rw [List.map_cons, List.foldl_cons, hnext, hfold]
    · rw [hlast, hlength, List.flatten_cons, List.length_append]
      omega

/-- Answer texts are added as they come unless one comes to an open tag. -/
theorem foldl_said_iff (lead : List Text) {buf : Text} (hlead : ∀ text ∈ lead, text ≠ []) :
    ((lead.map Piece.said).foldl appendPiece (buf, none)).1 = buf ++ lead.flatten ↔
      ∀ n < lead.length, thinkOpen <:+: buf ++ (lead.take n).flatten → thinkClose <:+: buf ++ (lead.take n).flatten := by
  induction lead generalizing buf with
  | nil => simp
  | cons text lead ih =>
    have htext : text ≠ [] := hlead text List.mem_cons_self
    by_cases hmistaken : opened buf none = true ∧ closed buf none = false
    · have hfold := @foldl_close buf text _ (lead.map Piece.said) hmistaken.1 hmistaken.2 htext
      constructor
      · intro heq
        rw [List.map_cons, hfold] at heq
        have hlength := congrArg List.length heq
        have hclose : thinkClose.length = 8 := rfl
        have hsaid : (lead.map Piece.said).flatMap Piece.text = lead.flatten := by
          rw [List.flatMap_map, List.flatten_eq_flatMap]
          rfl
        rw [hsaid] at hlength
        simp only [List.length_append, List.flatten_cons] at hlength
        omega
      · intro hall
        have hopen : thinkOpen <:+: buf := by simpa [opened] using hmistaken.1
        have hclosed := hall 0 (Nat.succ_pos _) (by simpa using hopen)
        rw [List.take_zero, List.flatten_nil, List.append_nil] at hclosed
        have hnot : ¬ thinkClose <:+: buf := by simpa [closed] using hmistaken.2
        exact absurd hclosed hnot
    · have hstep : appendPiece (buf, none) (.said text) = (buf ++ text, none) := by
        simp only [appendPiece, appendContent, if_neg htext]
        rw [if_neg]
        simpa using hmistaken
      have hrest := @ih (buf ++ text) fun other hother => hlead other (List.mem_cons_of_mem text hother)
      rw [List.map_cons, List.foldl_cons, hstep, List.flatten_cons, ← List.append_assoc, hrest]
      constructor
      · intro hall n hn hopen
        cases n with
        | zero =>
          rw [List.take_zero, List.flatten_nil, List.append_nil] at hopen ⊢
          by_contra hclosed
          exact hmistaken ⟨by simpa [opened] using hopen, by simpa [closed] using hclosed⟩
        | succ n =>
          rw [List.take_succ_cons, List.flatten_cons, ← List.append_assoc] at hopen ⊢
          exact hall n (Nat.lt_of_succ_lt_succ hn) hopen
      · intro hall n hn hopen
        have hlater := hall (n + 1) (Nat.succ_lt_succ hn)
        rw [List.take_succ_cons, List.flatten_cons, ← List.append_assoc] at hlater
        exact hlater hopen

/-! ## Both folds -/

variable {deltas : List Delta} {lead block : List Text} {first : Text} {more : List Text} {after : List Piece}

/-- Answer texts and nothing else. -/
theorem agrees_plain (hps : pieces deltas = lead.map Piece.said) :
    fold deltas (some createThinkStreamState) = fold deltas none ↔
      ∀ n < lead.length, thinkOpen <:+: (lead.take n).flatten → thinkClose <:+: (lead.take n).flatten := by
  have hlead : ∀ text ∈ lead, text ≠ [] := fun text htext =>
    @piece_ne_nil _ (.said text) (by rw [hps]; exact List.mem_map_of_mem htext)
  have hstate := @foldl_said [] (some createThinkStreamState) lead rfl
  have hscan := @foldl_said_iff lead [] hlead
  rw [fold_eq, fold_eq, hps, hstate, eq_comm]
  simpa using hscan

/-- The buffer with the block that the fold with state writes, before any answer text after it. -/
theorem fold_state_block (hfirst : first ≠ []) :
    (lead.map Piece.said ++ ((first :: more).map Piece.thought ++ after)).foldl appendPiece
        ([], some createThinkStreamState) =
      after.foldl appendPiece (lead.flatten ++ thinkOpen ++ (first :: more).flatten, some ⟨true, false⟩) := by
  have hlead := @foldl_said [] (some createThinkStreamState) lead rfl
  rw [List.nil_append] at hlead
  have hopen := @foldl_open lead.flatten _ (some createThinkStreamState) more rfl hfirst
  rw [List.foldl_append, hlead, List.foldl_append, hopen]
  rfl

theorem fold_scan_block (hfirst : first ≠ []) (hnone : ¬ thinkOpen <:+: lead.flatten) :
    (lead.map Piece.said ++ ((first :: more).map Piece.thought ++ after)).foldl appendPiece ([], none) =
      after.foldl appendPiece (lead.flatten ++ thinkOpen ++ (first :: more).flatten, none) := by
  have hclosed : opened lead.flatten none = false := by simpa [opened] using hnone
  have hlead := @foldl_said [] none lead (by rw [List.nil_append]; exact hclosed)
  rw [List.nil_append] at hlead
  rw [List.foldl_append, hlead, List.foldl_append, foldl_open more hclosed hfirst]
  rfl

/-- The tag of the scan is in the answer already: it writes one open tag less, and never catches up. -/
theorem scan_shorter (hfirst : first ≠ []) (hopen : thinkOpen <:+: lead.flatten)
    (hsaid : ∀ text more, after = .said text :: more → text ≠ [])
    (hafter : after = [] ∨ ∃ text more, after = .said text :: more) :
    ((lead.map Piece.said ++ ((first :: more).map Piece.thought ++ after)).foldl appendPiece
        ([], some createThinkStreamState)).1 ≠
      ((lead.map Piece.said ++ ((first :: more).map Piece.thought ++ after)).foldl appendPiece ([], none)).1 := by
  intro heq
  have hlength := congrArg List.length heq
  have hthink : thinkOpen.length = 7 := rfl
  have hclose : thinkClose.length = 8 := rfl
  have hblank : blankLine.length = 2 := rfl
  obtain ⟨next, k, hnext, hopened, hcount⟩ := @foldl_said_opened lead [] (by rw [List.nil_append]; exact hopen)
  obtain ⟨k', hk'⟩ := foldl_scanned_length ((first :: more).map Piece.thought ++ after) hopened
  have hthoughts : ((first :: more).map Piece.thought).flatMap Piece.text = (first :: more).flatten := by
    rw [List.flatMap_map, List.flatten_eq_flatMap]
    rfl
  rw [fold_state_block hfirst, List.foldl_append, hnext, hk', List.flatMap_append, hthoughts, hcount] at hlength
  obtain rfl | ⟨text, late, rfl⟩ := hafter
  · simp only [List.foldl_nil, List.flatMap_nil, List.length_append, List.length_nil] at hlength
    omega
  · have hwritten := @foldl_close (lead.flatten ++ thinkOpen ++ (first :: more).flatten) _
      (some ⟨true, false⟩) late rfl rfl (hsaid text late rfl)
    rw [hwritten, List.flatMap_cons] at hlength
    simp only [Piece.text, List.length_append, List.length_nil] at hlength
    omega

theorem agrees_block (hps : pieces deltas = lead.map Piece.said ++ ((first :: more).map Piece.thought ++ after))
    (hafter : after = [] ∨ ∃ text more, after = .said text :: more) :
    fold deltas (some createThinkStreamState) = fold deltas none ↔
      ¬ thinkOpen <:+: lead.flatten ∧
        (after ≠ [] → ¬ thinkClose <:+: lead.flatten ∧ ¬ thinkClose <:+: (first :: more).flatten) := by
  have hfirst : first ≠ [] := @piece_ne_nil deltas (.thought first) (by rw [hps]; simp)
  have hsaid : ∀ text more, after = .said text :: more → text ≠ [] := by
    intro text late hlate
    exact @piece_ne_nil deltas (.said text) (by rw [hps, hlate]; simp)
  rw [fold_eq, fold_eq, hps]
  by_cases hopen : thinkOpen <:+: lead.flatten
  · have hne := @scan_shorter _ _ more _ hfirst hopen hsaid hafter
    simp only [hopen, not_true_eq_false, false_and, iff_false]
    exact hne
  · rw [fold_state_block hfirst, fold_scan_block hfirst hopen]
    obtain rfl | ⟨text, late, rfl⟩ := hafter
    · simp [hopen]
    · have htext := hsaid text late rfl
      have hopened : opened (lead.flatten ++ thinkOpen ++ (first :: more).flatten) none = true := by
        simp [opened]
      rw [@foldl_close _ _ (some ⟨true, false⟩) late rfl rfl htext, ← not_or, ← close_infix_iff]
      by_cases hclosed : thinkClose <:+: lead.flatten ++ thinkOpen ++ (first :: more).flatten
      · have hscan := foldl_closed (.said text :: late) hopened (by simpa [closed] using hclosed)
        rw [hscan]
        simp only [hclosed, not_true_eq_false, imp_false, not_not, reduceCtorEq, and_false, iff_false]
        intro heq
        have hlength := congrArg List.length heq
        have hclose : thinkClose.length = 8 := rfl
        simp only [List.flatMap_cons, Piece.text, List.length_append] at hlength
        omega
      · have hscan := foldl_close late hopened (by simpa [closed] using hclosed) htext
        rw [hscan]
        exact ⟨fun _ => ⟨hopen, fun _ => hclosed⟩, fun _ => rfl⟩

/-- The state gives what the scan gives for just the deltas whose own text is never taken for a tag of the fold. -/
theorem fold_agrees_iff (deltas : List Delta) :
    fold deltas (some createThinkStreamState) = fold deltas none ↔ Unmistaken (pieces deltas) := by
  have hlead := answersFirst_eq (pieces deltas)
  have hblock := thoughtsFirst_eq (answersFirst (pieces deltas)).2
  unfold Unmistaken
  dsimp only
  split
  · rename_i hnone
    refine agrees_plain ?_
    have hrest : (answersFirst (pieces deltas)).2 = [] := by
      obtain hrest | ⟨text, more, hrest⟩ := answersFirst_rest (pieces deltas)
      · exact hrest
      · rw [hrest] at hnone
        cases hnone
    rw [hrest, List.append_nil] at hlead
    exact hlead
  · rename_i hsome
    obtain ⟨first, more, hfirst⟩ := List.exists_cons_of_ne_nil hsome
    rw [hfirst] at hblock ⊢
    exact agrees_block (by rw [← hblock]; exact hlead) (thoughtsFirst_rest _)

/-- A server that leaves the tags in the answer text: the scan closes the block a second time. -/
def inlineTags : List Delta := [⟨none, none, some "<think>so".toList⟩, ⟨none, none, some "</think>yes".toList⟩]

theorem scan_disagrees :
    ¬ ∀ deltas : List Delta, fold deltas (some createThinkStreamState) = fold deltas none := by
  intro h
  have hne : fold inlineTags (some createThinkStreamState) ≠ fold inlineTags none := by decide +kernel
  exact hne (h inlineTags)

end Haruspex.ThinkStream
