import Haruspex.CodingLoop.TodoLines
import Haruspex.JavaScript.Text

/-! A plan directory as a checklist (`autonomous-coding/planParse.ts`). -/
namespace Haruspex.CodingLoop
open JavaScript (isBlank)
open JavaScript.Chars
set_option autoImplicit false

structure PlanFile where
  name : Text
  content : Text

/-! ## Matching over lines -/

/-- `\s+`, and what follows. -/
def blanks? : Text → Option Text
  | [] => none
  | c :: cs => if isBlank c then some (cs.dropWhile isBlank) else none

/-- `\s*[—–:-]\s*`, and what follows. -/
def separator? (text : Text) : Option Text :=
  match text.dropWhile isBlank with
  | [] => none
  | c :: cs => if c ∈ ['—', '–', ':', '-'] then some (cs.dropWhile isBlank) else none

/-- The rest of a line, and what follows. -/
def spanLine (text : Text) : Text × Text := text.span (fun c => !isLineTerminator c)

/-- `(\S.*?)\s*$`, and what follows the line: the blank lines after it belong to no other match. -/
def lineTitle? : Text → Option (Text × Text)
  | [] => none
  | c :: cs =>
    if isBlank c then none
    else
      let (line, rest) := spanLine (c :: cs)
      some (trimEnd line, rest)

/-- A word in any case. -/
def afterAnyCase (word text : Text) : Option Text :=
  if (text.take word.length).map Char.toLower = word then some (text.drop word.length) else none

/-- The first match that starts a line; `start` tells whether the text does. -/
def firstMatch {β : Type} (match? : Text → Option β) (start : Bool) (text : Text) : Option β :=
  match if start then match? text else none with
  | some b => some b
  | none =>
    match text with
    | [] => none
    | c :: cs => firstMatch match? (isLineTerminator c) cs

/-- The text before the first match that starts a line. -/
def beforeMatch (matches? : Text → Bool) (start : Bool) : Text → Text
  | [] => []
  | c :: cs =>
    if start && matches? (c :: cs) then [] else c :: beforeMatch matches? (isLineTerminator c) cs

/-- The matches that start a line, `skip` characters belonging to the last one. -/
def allMatches {β : Type} (match? : Text → Option (β × Text)) (start : Bool) (skip : ℕ) : Text → List β
  | [] => []
  | c :: cs =>
    match skip with
    | skip + 1 => allMatches match? (isLineTerminator c) skip cs
    | 0 =>
      match if start then match? (c :: cs) else none with
      | some (b, rest) => b :: allMatches match? (isLineTerminator c) (cs.length - rest.length) cs
      | none => allMatches match? (isLineTerminator c) 0 cs

/-! ## Code blocks -/

/-- `[^\S\n]*$`, as long as it can be, and what follows. -/
def spacesToEnd? : Text → Option Text
  | [] => some []
  | c :: cs =>
    match if isBlank c && c ≠ '\n' then spacesToEnd? cs else none with
    | some rest => some rest
    | none => if isLineTerminator c then some (c :: cs) else none

def codeFence : Text := ['`', '`', '`']

/-- A fenced block, and what follows. -/
def fenced? (text : Text) : Option Text := do
  let text ← after codeFence text
  firstMatch (fun line => (after codeFence line).bind spacesToEnd?) false text

/-- The text without its fenced blocks, `skip` characters belonging to the last one. -/
def withoutCode (start : Bool) (skip : ℕ) : Text → Text
  | [] => []
  | c :: cs =>
    match skip with
    | skip + 1 => withoutCode (isLineTerminator c) skip cs
    | 0 =>
      match if start then fenced? (c :: cs) else none with
      | some rest => withoutCode (isLineTerminator c) (cs.length - rest.length) cs
      | none => c :: withoutCode (isLineTerminator c) 0 cs

/-! ## Steps -/

/-- `^##\s+Steps\b.*$`, and what follows. -/
def stepsHeading? (text : Text) : Option Text := do
  let text ← blanks? (← after ['#', '#'] text)
  let text ← after ['S', 't', 'e', 'p', 's'] text
  if text.head?.any (fun c => c.isAlphanum || c = '_') then none else some (spanLine text).2

/-- `^##\s` -/
def isHeading (text : Text) : Bool := ((after ['#', '#'] text).bind blanks?).isSome

/-- The text between `## Steps` and the next `## ` heading. -/
def stepsSection (content : Text) : Option Text :=
  (firstMatch stepsHeading? true content).map (beforeMatch isHeading true)

/-- `^###\s+(\S.*?)\s*$` -/
def subheading? (text : Text) : Option (Text × Text) := do
  lineTitle? (← blanks? (← after ['#', '#', '#'] text))

/-- `^(\d+)\.\s+(\S.*?)\s*$` -/
def numbered? (text : Text) : Option (Text × Text) := do
  let (_, text) ← digits text
  lineTitle? (← blanks? (← after ['.'] text))

/-- `title.replace(/^Step\s+\d+\s*[—–:-]\s*/i, '')` -/
def withoutStep (title : Text) : Text :=
  let stripped? : Option Text := do
    let (_, text) ← digits (← blanks? (← afterAnyCase ['s', 't', 'e', 'p'] title))
    separator? text
  stripped?.getD title

def extractStepTitles (content : Text) : List Text :=
  match stepsSection content with
  | none => []
  | some section' =>
    let noCode := withoutCode true 0 section'
    let subheadings := (allMatches subheading? true 0 noCode).map withoutStep
    if subheadings ≠ [] then subheadings else allMatches numbered? true 0 noCode

/-! ## The plan -/

/-- `PHASE_FILE_RE` -/
def isPhaseFile (name : Text) : Bool :=
  match (afterAnyCase ['p', 'h', 'a', 's', 'e', '-'] name).bind digits with
  | some (_, rest) => OneLine rest ∧ ['.', 'm', 'd'] <:+ rest.map Char.toLower
  | none => false

/-- `PHASE_HEADING_RE`, and what follows. -/
def phaseHeading? (text : Text) : Option (Text × Text) := do
  let text ← blanks? (← after ['#'] text)
  let text ← blanks? (← after ['P', 'h', 'a', 's', 'e'] text)
  let (_, text) ← digits text
  lineTitle? (← separator? text)

def maxTitleChars : ℕ := 90

def clipTitle (title : Text) : Text :=
  let t := trim title
  if (JavaScript.toUnits t).length ≤ maxTitleChars then t else firstUnits t (maxTitleChars - 1) ++ ['…']

def makeItem (index : ℕ) (phase title description : Text) : TaskItem :=
  ⟨positionId (index + 1), title, description, .todo, 0, some phase, false⟩

def wholePhase (planDir name phaseId phaseTitle : Text) : Text × Text :=
  (clipTitle ("Implement Phase ".toList ++ phaseId ++ " — ".toList ++ phaseTitle),
    "Implement this phase in full as specified in ".toList ++ planDir ++ name ++
      (". Its Steps section has no individually numbered steps — read the file end to end before " ++
        "writing code.").toList)

def stepOf (planDir name phaseId phaseTitle : Text) (steps k : ℕ) (stepTitle : Text) : Text × Text :=
  (clipTitle stepTitle,
    "Step ".toList ++ decimal (k + 1) ++ " of ".toList ++ decimal steps ++ " in Phase ".toList ++ phaseId ++
      " (\"".toList ++ phaseTitle ++
      ("\"). Implement EXACTLY this step as specified — read it in full under \"## Steps\" in ").toList ++
      planDir ++ name ++ " before writing code.".toList)

/-- The titles and descriptions of a phase's items. -/
def itemTexts (planDir phaseId phaseTitle : Text) (file : PlanFile) : List (Text × Text) :=
  let steps := extractStepTitles file.content
  if steps = [] then [wholePhase planDir file.name phaseId phaseTitle]
  else steps.mapIdx (stepOf planDir file.name phaseId phaseTitle steps.length)

def addFile (planDir : Text) (plan : LoopPlan) (file : PlanFile) : Option LoopPlan := do
  let (phaseTitle, _) ← firstMatch phaseHeading? true file.content
  let phaseId := positionId (plan.phases.length + 1)
  some ⟨plan.phases ++ [⟨phaseId, phaseTitle, .pending, 0, 0⟩],
    plan.items ++ (itemTexts planDir phaseId phaseTitle file).mapIdx (fun k item =>
      makeItem (plan.items.length + k) phaseId item.1 item.2)⟩

/-- The plan of a directory; `before` is the order of `localeCompare`. -/
def parseGuidedPlan (before : Text → Text → Bool) (files : List PlanFile) (planDir : Text) : Option LoopPlan :=
  let phaseFiles := (files.filter (fun f => isPhaseFile f.name)).mergeSort (fun a b => before a.name b.name)
  if phaseFiles = [] then none
  else do
    let plan ← phaseFiles.foldlM (addFile planDir) ⟨[], []⟩
    if plan.items = [] then none else some plan

/-! ## Its titles -/

theorem lineTitle?_spec {text title rest : Text} (h : lineTitle? text = some (title, rest)) :
    OneLine title ∧ Trimmed title := by
  cases text with
  | nil => cases h
  | cons c cs =>
    unfold lineTitle? at h
    dsimp only at h
    split at h
    · cases h
    · rename_i hc
      cases h
      have hspan : (spanLine (c :: cs)).1 = (c :: cs).takeWhile (fun c => !isLineTerminator c) := by
        rw [spanLine, List.span_eq_takeWhile_dropWhile]
      have hc' : isLineTerminator c = false := by
        by_contra hterminator
        exact hc (isBlank_of_isLineTerminator (by simpa using hterminator))
      rw [hspan]
      have hline : OneLine ((c :: cs).takeWhile (fun c => !isLineTerminator c)) := by
        intro d hd
        simpa using List.mem_takeWhile_imp hd
      refine ⟨hline.sublist (trimEnd_front _).sublist, ?_, trimEnd_back _⟩
      intro d hd
      obtain ⟨back, hback⟩ := trimEnd_front ((c :: cs).takeWhile (fun c => !isLineTerminator c))
      cases htrim : trimEnd ((c :: cs).takeWhile (fun c => !isLineTerminator c)) with
      | nil =>
        rw [htrim] at hd
        cases hd
      | cons e es =>
        rw [htrim] at hd hback
        cases hd
        rw [List.takeWhile_cons_of_pos (by simp [hc']), List.cons_append, List.cons.injEq] at hback
        rw [hback.1]
        simpa using hc

theorem firstMatch_some {β : Type} {match? : Text → Option β} {start : Bool} {text : Text} {b : β}
    (h : firstMatch match? start text = some b) : ∃ text', match? text' = some b := by
  induction text generalizing start with
  | nil =>
    unfold firstMatch at h
    split at h
    · rename_i hmatch
      cases h
      split at hmatch
      · exact ⟨_, hmatch⟩
      · cases hmatch
    · cases h
  | cons c cs ih =>
    unfold firstMatch at h
    split at h
    · rename_i hmatch
      cases h
      split at hmatch
      · exact ⟨_, hmatch⟩
      · cases hmatch
    · exact ih h

theorem mem_allMatches {β : Type} {match? : Text → Option (β × Text)} {start : Bool} {skip : ℕ} {text : Text}
    {b : β} (h : b ∈ allMatches match? start skip text) : ∃ text' rest, match? text' = some (b, rest) := by
  induction text generalizing start skip with
  | nil => cases h
  | cons c cs ih =>
    unfold allMatches at h
    split at h
    · exact ih h
    · split at h
      · rename_i hmatch
        obtain rfl | h := List.mem_cons.mp h
        · split at hmatch
          · exact ⟨_, _, hmatch⟩
          · cases hmatch
        · exact ih h
      · exact ih h

theorem titles_of_phaseHeading? {text rest title : Text} (h : phaseHeading? text = some (title, rest)) :
    OneLine title ∧ Trimmed title := by
  obtain ⟨text₁, -, h⟩ := Option.bind_eq_some_iff.mp h
  obtain ⟨text₂, -, h⟩ := Option.bind_eq_some_iff.mp h
  obtain ⟨text₃, -, h⟩ := Option.bind_eq_some_iff.mp h
  obtain ⟨text₄, -, h⟩ := Option.bind_eq_some_iff.mp h
  obtain ⟨⟨number, text₅⟩, -, h⟩ := Option.bind_eq_some_iff.mp h
  obtain ⟨text₆, -, h⟩ := Option.bind_eq_some_iff.mp h
  exact lineTitle?_spec h

theorem oneLine_of_subheading? {text rest title : Text} (h : subheading? text = some (title, rest)) :
    OneLine title := by
  obtain ⟨text₁, -, h⟩ := Option.bind_eq_some_iff.mp h
  obtain ⟨text₂, -, h⟩ := Option.bind_eq_some_iff.mp h
  exact (lineTitle?_spec h).1

theorem oneLine_of_numbered? {text rest title : Text} (h : numbered? text = some (title, rest)) :
    OneLine title := by
  obtain ⟨⟨number, text₁⟩, -, h⟩ := Option.bind_eq_some_iff.mp h
  obtain ⟨text₂, -, h⟩ := Option.bind_eq_some_iff.mp h
  obtain ⟨text₃, -, h⟩ := Option.bind_eq_some_iff.mp h
  exact (lineTitle?_spec h).1

theorem blanks?_sublist {text rest : Text} (h : blanks? text = some rest) : rest.Sublist text := by
  cases text with
  | nil => cases h
  | cons c cs =>
    unfold blanks? at h
    dsimp only at h
    split at h
    · cases h
      exact (List.dropWhile_sublist isBlank).trans (List.sublist_cons_self c cs)
    · cases h

theorem digits_sublist {text rest : Text} {n : ℕ} (h : digits text = some (n, rest)) : rest.Sublist text := by
  obtain ⟨ds, -, rfl⟩ := eq_of_digits h
  exact List.sublist_append_right ds rest

theorem separator?_sublist {text rest : Text} (h : separator? text = some rest) : rest.Sublist text := by
  unfold separator? at h
  split at h
  · cases h
  · rename_i c cs hdrop
    split at h
    · cases h
      have hsub : (c :: cs).Sublist text := hdrop ▸ List.dropWhile_sublist isBlank
      exact ((List.dropWhile_sublist isBlank).trans (List.sublist_cons_self c cs)).trans hsub
    · cases h

theorem withoutStep_sublist (title : Text) : (withoutStep title).Sublist title := by
  unfold withoutStep
  dsimp only
  cases hstripped : (do
      let (_, text) ← digits (← blanks? (← afterAnyCase ['s', 't', 'e', 'p'] title))
      separator? text : Option Text) with
  | none => exact List.Sublist.refl title
  | some rest =>
    obtain ⟨text₁, hafter, hstripped⟩ := Option.bind_eq_some_iff.mp hstripped
    obtain ⟨text₂, hblanks, hstripped⟩ := Option.bind_eq_some_iff.mp hstripped
    obtain ⟨⟨number, text₃⟩, hdigits, hseparator⟩ := Option.bind_eq_some_iff.mp hstripped
    have hdrop : text₁.Sublist title := by
      unfold afterAnyCase at hafter
      split at hafter
      · cases hafter
        exact List.drop_sublist _ title
      · cases hafter
    exact (separator?_sublist hseparator).trans
      ((digits_sublist hdigits).trans ((blanks?_sublist hblanks).trans hdrop))

theorem oneLine_of_mem_extractStepTitles {content title : Text} (h : title ∈ extractStepTitles content) :
    OneLine title := by
  unfold extractStepTitles at h
  split at h
  · cases h
  · dsimp only at h
    split at h
    · obtain ⟨title', hmem, rfl⟩ := List.mem_map.mp h
      obtain ⟨text, rest, hmatch⟩ := mem_allMatches hmem
      exact (oneLine_of_subheading? hmatch).sublist (withoutStep_sublist title')
    · obtain ⟨text, rest, hmatch⟩ := mem_allMatches h
      exact oneLine_of_numbered? hmatch

/-- A title that is cut keeps its first character and ends with an ellipsis. -/
theorem clipTitle_spec {title : Text} (h : OneLine title) : OneLine (clipTitle title) ∧ Trimmed (clipTitle title) := by
  have hline : OneLine (trim title) := h.sublist (trim_sublist title)
  unfold clipTitle
  dsimp only
  split
  · exact ⟨hline, trimmed_trim title⟩
  · rename_i hlong
    have hcut : OneLine (firstUnits (trim title) (maxTitleChars - 1)) := by
      intro c hc
      obtain hmem | rfl := JavaScript.mem_ofUnits_take hc
      · exact hline c hmem
      · decide
    refine ⟨hcut.append (by decide), ?_, ?_⟩
    · have hfront := (trimmed_trim title).front
      cases htrim : trim title with
      | nil =>
        rw [htrim] at hlong
        exact absurd (by decide) hlong
      | cons c cs =>
        obtain ⟨m, hfirst⟩ := JavaScript.ofUnits_take_cons c cs 87
        rw [htrim] at hfront
        rw [firstUnits, maxTitleChars, hfirst]
        exact hfront
    · rw [List.getLast?_concat]
      rintro c ⟨⟩
      decide

/-! ## Ids -/

theorem isId_positionId (n : ℕ) : IsId (positionId n) := by
  refine ⟨fun c hc => ?_, ?_⟩
  · rw [positionId, List.leftpad] at hc
    obtain hc | hc := List.mem_append.mp hc
    · rw [List.eq_of_mem_replicate hc]
      decide
    · exact isDigit_decimal n c hc
  · rw [positionId, List.length_leftpad]
    exact Nat.le_max_left ..

/-! ## What is built is well-formed -/

theorem title_of_mem_itemTexts {planDir phaseId phaseTitle : Text} {file : PlanFile} {item : Text × Text}
    (hid : OneLine phaseId) (htitle : OneLine phaseTitle)
    (h : item ∈ itemTexts planDir phaseId phaseTitle file) :
    ∃ title, OneLine title ∧ item.1 = clipTitle title := by
  unfold itemTexts at h
  dsimp only at h
  split at h
  · rw [List.mem_singleton.mp h]
    have hphase : OneLine "Implement Phase ".toList := by decide +kernel
    have hdash : OneLine " — ".toList := by decide +kernel
    exact ⟨_, ((hphase.append hid).append hdash).append htitle, rfl⟩
  · obtain ⟨k, hk, rfl⟩ := List.mem_mapIdx.mp h
    exact ⟨_, oneLine_of_mem_extractStepTitles (List.getElem_mem hk), rfl⟩

theorem wellformed_addFile {planDir : Text} {plan plan' : LoopPlan} {file : PlanFile} (h : plan.Wellformed)
    (hadd : addFile planDir plan file = some plan') : plan'.Wellformed := by
  obtain ⟨⟨title, rest⟩, hfirst, hadd⟩ := Option.bind_eq_some_iff.mp hadd
  obtain ⟨text, hheading⟩ := firstMatch_some hfirst
  obtain ⟨hline, htrimmed⟩ := titles_of_phaseHeading? hheading
  cases hadd
  refine ⟨fun phase hphase => ?_, fun item hitem => ?_⟩
  · obtain hphase | hphase := List.mem_append.mp hphase
    · exact h.phases phase hphase
    · rw [List.mem_singleton.mp hphase]
      exact ⟨isId_positionId _, hline, htrimmed⟩
  · obtain hitem | hitem := List.mem_append.mp hitem
    · exact h.items item hitem
    · obtain ⟨k, hk, rfl⟩ := List.mem_mapIdx.mp hitem
      obtain ⟨title', hline', heq⟩ := title_of_mem_itemTexts (oneLine_digits (isId_positionId _).digits) hline
        (List.getElem_mem hk)
      have hspec := clipTitle_spec hline'
      rw [← heq] at hspec
      exact ⟨isId_positionId _, hspec.1, hspec.2⟩

theorem wellformed_parseGuidedPlan {before : Text → Text → Bool} {files : List PlanFile} {planDir : Text}
    {plan : LoopPlan} (h : parseGuidedPlan before files planDir = some plan) : plan.Wellformed := by
  unfold parseGuidedPlan at h
  dsimp only at h
  split at h
  · cases h
  · obtain ⟨plan', hfold, h⟩ := Option.bind_eq_some_iff.mp h
    split at h
    · cases h
    · cases h
      have hstart : LoopPlan.Wellformed ⟨[], []⟩ := ⟨fun _ hp => (nomatch hp), fun _ hi => (nomatch hi)⟩
      generalize (⟨[], []⟩ : LoopPlan) = start at hfold hstart
      generalize List.mergeSort _ _ = phaseFiles at hfold
      induction phaseFiles generalizing start with
      | nil =>
        cases hfold
        exact hstart
      | cons file phaseFiles ih =>
        rw [List.foldlM_cons] at hfold
        obtain ⟨next, hadd, hfold⟩ := Option.bind_eq_some_iff.mp hfold
        exact ih next (wellformed_addFile hstart hadd) hfold

end Haruspex.CodingLoop
