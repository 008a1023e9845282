import Haruspex.CodingLoop.Guided
import Mathlib.Data.List.Induction
import Mathlib.Data.List.Perm.Basic

/-! What a plan directory says, code blocks left out, and when it is read so (`autonomous-coding/planParse.ts`). -/
namespace Haruspex.CodingLoop
open JavaScript (isBlank)
open JavaScript.Chars
set_option autoImplicit false

/-! ## Fenced code blocks -/

/-- The character and the length of an opening fence, and what follows. -/
def fenceOpening? (text : Text) : Option (Char × ℕ × Text) :=
  if 3 < (text.takeWhile (· = ' ')).length then none
  else
    match text.dropWhile (· = ' ') with
    | [] => none
    | c :: cs =>
      let rest := (c :: cs).dropWhile (· = c)
      let length := ((c :: cs).takeWhile (· = c)).length
      if 3 ≤ length ∧ (c = '~' ∨ (c = '`' ∧ '`' ∉ (spanLine rest).1)) then some (c, length, rest) else none

/-- A closing fence, as long as the opening one, and what follows its line. -/
def fenceClosing? (c : Char) (length : ℕ) (text : Text) : Option Text :=
  let line := text.dropWhile (· = ' ')
  if 3 < (text.takeWhile (· = ' ')).length ∨ (line.takeWhile (· = c)).length < length then none
  else spacesToEnd? (line.dropWhile (· = c))

/-- A fenced block, and what follows: one that is not closed goes to the end. -/
def fence? (text : Text) : Option Text :=
  match fenceOpening? text with
  | none => none
  | some (c, length, rest) => some ((firstMatch (fenceClosing? c length) false rest).getD [])

/-- The first match that starts a line outside fenced blocks. -/
def firstOutside {β : Type} (match? : Text → Option β) (start : Bool) (skip : ℕ) : Text → Option β
  | [] => none
  | c :: cs =>
    match skip with
    | skip + 1 => firstOutside match? (isLineTerminator c) skip cs
    | 0 =>
      match if start then fence? (c :: cs) else none with
      | some rest => firstOutside match? (isLineTerminator c) (cs.length - rest.length) cs
      | none =>
        match if start then match? (c :: cs) else none with
        | some b => some b
        | none => firstOutside match? (isLineTerminator c) 0 cs

/-- The text before the first match that starts a line outside fenced blocks. -/
def beforeOutside (matches? : Text → Bool) (start : Bool) (skip : ℕ) : Text → Text
  | [] => []
  | c :: cs =>
    match skip with
    | skip + 1 => c :: beforeOutside matches? (isLineTerminator c) skip cs
    | 0 =>
      match if start then fence? (c :: cs) else none with
      | some rest => c :: beforeOutside matches? (isLineTerminator c) (cs.length - rest.length) cs
      | none =>
        if start && matches? (c :: cs) then [] else c :: beforeOutside matches? (isLineTerminator c) 0 cs

/-- The text without its fenced blocks. -/
def withoutFences (start : Bool) (skip : ℕ) : Text → Text
  | [] => []
  | c :: cs =>
    match skip with
    | skip + 1 => withoutFences (isLineTerminator c) skip cs
    | 0 =>
      match if start then fence? (c :: cs) else none with
      | some rest => withoutFences (isLineTerminator c) (cs.length - rest.length) cs
      | none => c :: withoutFences (isLineTerminator c) 0 cs

/-- The text from the first `## Steps` heading to the next `## ` heading. -/
def stepsOutside (content : Text) : Option Text :=
  (firstOutside stepsHeading? true 0 content).map (beforeOutside isHeading true 0)

/-- The steps of a phase file: its `### ` headings, or the numbered lines where there are none. -/
def stepTitles (content : Text) : List Text :=
  match stepsOutside content with
  | none => []
  | some section' =>
    let text := withoutFences true 0 section'
    let subheadings := (allMatches subheading? true 0 text).map withoutStep
    if subheadings ≠ [] then subheadings else allMatches numbered? true 0 text

/-! ## When they are read -/

/-- No match inside a fenced block comes before the first one outside. -/
def clear (matches? : Text → Bool) (start : Bool) (skip : ℕ) : Text → Bool
  | [] => true
  | c :: cs =>
    match skip with
    | skip + 1 => !(start && matches? (c :: cs)) && clear matches? (isLineTerminator c) skip cs
    | 0 =>
      match if start then fence? (c :: cs) else none with
      | some rest => clear matches? (isLineTerminator c) (cs.length - rest.length) cs
      | none => (start && matches? (c :: cs)) || clear matches? (isLineTerminator c) 0 cs

/-- At the start of a line outside fenced blocks, the regular expression finds one where one is, and the whole of it. -/
def sameBlocks (start : Bool) (skip : ℕ) : Text → Bool
  | [] => true
  | c :: cs =>
    match skip with
    | skip + 1 => sameBlocks (isLineTerminator c) skip cs
    | 0 =>
      (!start || fenced? (c :: cs) == fence? (c :: cs)) &&
        match if start then fence? (c :: cs) else none with
        | some rest => sameBlocks (isLineTerminator c) (cs.length - rest.length) cs
        | none => sameBlocks (isLineTerminator c) 0 cs

/-- No heading inside a fenced block begins or ends the Steps section, and its blocks are found. -/
structure PlainBlocks (content : Text) : Prop where
  opens : clear (fun text => (stepsHeading? text).isSome) true 0 content = true
  closes : (firstOutside stepsHeading? true 0 content).all (clear isHeading true 0) = true
  blocks : (stepsOutside content).all (sameBlocks true 0) = true

/-- A fence is no heading. -/
theorem after_of_fence? {text rest : Text} (h : fence? text = some rest) : after ['#', '#'] text = none := by
  unfold after
  rw [if_neg]
  rintro ⟨tail, rfl⟩
  unfold fence? fenceOpening? at h
  simp at h

theorem stepsHeading?_of_fence? {text rest : Text} (h : fence? text = some rest) : stepsHeading? text = none := by
  rw [stepsHeading?, after_of_fence? h]
  rfl

theorem isHeading_of_fence? {text rest : Text} (h : fence? text = some rest) : isHeading text = false := by
  rw [isHeading, after_of_fence? h]
  rfl

theorem firstMatch_outside {β : Type} {match? : Text → Option β} (hnil : match? [] = none)
    (hfence : ∀ text rest, fence? text = some rest → match? text = none) {start : Bool} {skip : ℕ} {text : Text}
    (h : clear (fun text => (match? text).isSome) start skip text = true) :
    firstMatch match? start text = firstOutside match? start skip text := by
  induction text generalizing start skip with
  | nil =>
    unfold firstMatch firstOutside
    simp [hnil]
  | cons c cs ih =>
    unfold firstMatch firstOutside
    unfold clear at h
    cases skip with
    | succ skip =>
      dsimp only at h ⊢
      rw [Bool.and_eq_true, Bool.not_eq_true'] at h
      have hnone : (if start then match? (c :: cs) else none) = none := by
        split
        · rename_i hstart
          have hnot := h.1
          simpa [hstart] using hnot
        · rfl
      rw [hnone]
      exact ih h.2
    | zero =>
      dsimp only at h ⊢
      cases hblock : (if start then fence? (c :: cs) else none) with
      | some rest =>
        rw [hblock] at h
        have hnone : (if start then match? (c :: cs) else none) = none := by
          split at hblock
          · rename_i hstart
            rw [if_pos hstart, hfence _ _ hblock]
          · cases hblock
        rw [hnone]
        exact ih h
      | none =>
        rw [hblock] at h
        cases hmatch : (if start then match? (c :: cs) else none) with
        | some b => rfl
        | none =>
          dsimp only at h
          refine ih ((Bool.or_eq_true_iff.mp h).resolve_left ?_)
          rw [Bool.and_eq_true]
          rintro ⟨hstart, hsome⟩
          rw [if_pos hstart] at hmatch
          rw [hmatch] at hsome
          cases hsome

theorem beforeMatch_outside {start : Bool} {skip : ℕ} {text : Text} (h : clear isHeading start skip text = true) :
    beforeMatch isHeading start text = beforeOutside isHeading start skip text := by
  induction text generalizing start skip with
  | nil => rfl
  | cons c cs ih =>
    unfold beforeMatch beforeOutside
    unfold clear at h
    cases skip with
    | succ skip =>
      dsimp only at h ⊢
      rw [Bool.and_eq_true, Bool.not_eq_true'] at h
      rw [if_neg (by rw [h.1]; exact Bool.false_ne_true), ih h.2]
    | zero =>
      dsimp only at h ⊢
      cases hblock : (if start then fence? (c :: cs) else none) with
      | some rest =>
        rw [hblock] at h
        have hnone : ¬ (start && isHeading (c :: cs)) = true := by
          split at hblock
          · rw [isHeading_of_fence? hblock]
            simp
          · cases hblock
        rw [if_neg hnone, ih h]
      | none =>
        rw [hblock] at h
        dsimp only at h ⊢
        by_cases hheading : (start && isHeading (c :: cs)) = true
        · rw [if_pos hheading, if_pos hheading]
        · rw [if_neg hheading, if_neg hheading, ih ((Bool.or_eq_true_iff.mp h).resolve_left hheading)]

theorem withoutCode_fences {start : Bool} {skip : ℕ} {text : Text} (h : sameBlocks start skip text = true) :
    withoutCode start skip text = withoutFences start skip text := by
  induction text generalizing start skip with
  | nil => rfl
  | cons c cs ih =>
    unfold withoutCode withoutFences
    unfold sameBlocks at h
    cases skip with
    | succ skip => exact ih h
    | zero =>
      dsimp only at h ⊢
      rw [Bool.and_eq_true] at h
      have hsame : (if start then fenced? (c :: cs) else none) = if start then fence? (c :: cs) else none := by
        split
        · rename_i hstart
          have hown := h.1
          simpa [hstart] using hown
        · rfl
      rw [hsame]
      cases hblock : (if start then fence? (c :: cs) else none) with
      | some rest =>
        rw [hblock] at h
        exact ih h.2
      | none =>
        rw [hblock] at h
        rw [ih h.2]

/-- The steps of a plain file are read. -/
theorem extractStepTitles_eq {content : Text} (h : PlainBlocks content) : extractStepTitles content = stepTitles content := by
  have hopens : firstMatch stepsHeading? true content = firstOutside stepsHeading? true 0 content :=
    firstMatch_outside (by rfl) (fun text rest hfence => stepsHeading?_of_fence? hfence) h.opens
  have hcloses := h.closes
  have hblocks := h.blocks
  have hsection : stepsSection content = stepsOutside content := by
    rw [stepsSection, stepsOutside, hopens]
    cases hrest : firstOutside stepsHeading? true 0 content with
    | none => rfl
    | some rest =>
      rw [hrest, Option.all_some] at hcloses
      exact congrArg some (beforeMatch_outside hcloses)
  unfold extractStepTitles stepTitles
  rw [hsection]
  cases htext : stepsOutside content with
  | none => rfl
  | some text =>
    rw [htext, Option.all_some] at hblocks
    dsimp only
    rw [withoutCode_fences hblocks]

/-! ## The plan -/

/-- The number of a phase file. -/
def phaseNumber (name : Text) : ℕ :=
  match (afterAnyCase ['p', 'h', 'a', 's', 'e', '-'] name).bind digits with
  | some (number, _) => number
  | none => 0

/-- The title in a file's phase heading. -/
def phaseTitle? (file : PlanFile) : Option Text := (firstMatch phaseHeading? true file.content).map Prod.fst

/-- One title and description for each step, or one for the whole phase. -/
def expectedTexts (planDir : Text) (k : ℕ) (file : PlanFile) : List (Text × Text) :=
  let title := (phaseTitle? file).getD []
  let steps := stepTitles file.content
  if steps = [] then [wholePhase planDir file.name (positionId (k + 1)) title]
  else steps.mapIdx (stepOf planDir file.name (positionId (k + 1)) title steps.length)

/-- The plan of some phase files, in their order. -/
def expectedPlan (planDir : Text) (files : List PlanFile) : LoopPlan where
  phases := files.mapIdx fun k file => ⟨positionId (k + 1), (phaseTitle? file).getD [], .pending, 0, 0⟩
  items := ((files.mapIdx fun k file => (expectedTexts planDir k file).map fun t => (positionId (k + 1), t)).flatten).mapIdx
    fun i item => makeItem i item.1 item.2.1 item.2.2

/-- Every phase file is a phase, in the order of their numbers, and every step of it an item. -/
def ReadWhole (before : Text → Text → Bool) (files : List PlanFile) (planDir : Text) : Prop :=
  ∃ phaseFiles : List PlanFile, phaseFiles.Perm (files.filter fun f => isPhaseFile f.name) ∧
    phaseFiles.Pairwise (fun a b => phaseNumber a.name ≤ phaseNumber b.name) ∧
      parseGuidedPlan before files planDir = if phaseFiles = [] then none else some (expectedPlan planDir phaseFiles)

theorem itemTexts_eq {planDir title : Text} {k : ℕ} {file : PlanFile} (h : PlainBlocks file.content)
    (htitle : phaseTitle? file = some title) :
    itemTexts planDir (positionId (k + 1)) title file = expectedTexts planDir k file := by
  unfold itemTexts expectedTexts
  rw [extractStepTitles_eq h, htitle]
  rfl

theorem expectedPlan_snoc (planDir : Text) (files : List PlanFile) (file : PlanFile) :
    expectedPlan planDir (files ++ [file]) =
      ⟨(expectedPlan planDir files).phases ++ [⟨positionId (files.length + 1), (phaseTitle? file).getD [], .pending, 0, 0⟩],
        (expectedPlan planDir files).items ++ (expectedTexts planDir files.length file).mapIdx fun k item =>
          makeItem ((expectedPlan planDir files).items.length + k) (positionId (files.length + 1)) item.1 item.2⟩ := by
  unfold expectedPlan
  simp only [List.mapIdx_append, List.flatten_append, List.mapIdx_cons, List.mapIdx_nil, List.flatten_cons,
    List.flatten_nil, List.append_nil, List.length_mapIdx, Nat.zero_add]
  congr 2
  refine List.ext_getElem (by simp) fun n h h' => ?_
  simp [Nat.add_comm]

/-- One more file. -/
theorem addFile_expected {planDir : Text} {files : List PlanFile} {file : PlanFile} (h : PlainBlocks file.content)
    (hheading : (phaseTitle? file).isSome = true) :
    addFile planDir (expectedPlan planDir files) file = some (expectedPlan planDir (files ++ [file])) := by
  obtain ⟨title, htitle⟩ := Option.isSome_iff_exists.mp hheading
  obtain ⟨found, hfound, rfl⟩ := Option.map_eq_some_iff.mp htitle
  have hphases : (expectedPlan planDir files).phases.length = files.length := List.length_mapIdx
  rw [expectedPlan_snoc, ← itemTexts_eq h htitle, htitle]
  unfold addFile
  rw [hfound, hphases]
  rfl

theorem foldlM_expected {planDir : Text} {files : List PlanFile}
    (h : ∀ file ∈ files, PlainBlocks file.content ∧ (phaseTitle? file).isSome = true) :
    files.foldlM (addFile planDir) ⟨[], []⟩ = some (expectedPlan planDir files) := by
  induction files using List.reverseRecOn with
  | nil => rfl
  | append_singleton files file ih =>
    have hfile := h file (by simp)
    rw [List.foldlM_append, ih fun f hf => h f (by simp [hf])]
    simp [addFile_expected hfile.1 hfile.2]

/-- A phase has an item. -/
theorem expectedTexts_ne_nil (planDir : Text) (k : ℕ) (file : PlanFile) : expectedTexts planDir k file ≠ [] := by
  unfold expectedTexts
  dsimp only
  split
  · exact List.cons_ne_nil _ _
  · rename_i hsteps
    exact fun h => hsteps (List.mapIdx_eq_nil_iff.mp h)

theorem expectedPlan_items {planDir : Text} {files : List PlanFile} (h : files ≠ []) :
    (expectedPlan planDir files).items ≠ [] := by
  obtain ⟨start, last, rfl⟩ := List.eq_nil_or_concat' files |>.resolve_left h
  rw [expectedPlan_snoc]
  intro hnil
  exact expectedTexts_ne_nil _ _ _ (List.mapIdx_eq_nil_iff.mp (List.append_eq_nil_iff.mp hnil).2)

def sampleFirst : PlanFile :=
  ⟨"phase-01.md".toList, "# Phase 1: One\n## Steps\n### A\n```\n1. x\n```\n### B\n".toList⟩

def sampleSecond : PlanFile := ⟨"phase-02.md".toList, "# Phase 2: Two\n".toList⟩

/-- A comment in a code block ends the section: the step after it is lost. -/
def sampleCut : PlanFile :=
  ⟨"phase-01.md".toList, "# Phase 1: One\n## Steps\n### A\n```sh\n## note\n```\n### B\n".toList⟩

end Haruspex.CodingLoop
