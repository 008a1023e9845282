import Haruspex.CodingLoop.TodoLines

/-! What the whole checklist file is read as. -/
namespace Haruspex.CodingLoop
open JavaScript (isBlank)
open JavaScript.Chars
set_option autoImplicit false

/-! ## Descriptions -/

/-- A line that a description is written as. -/
structure IsTextLine (line : Text) : Prop where
  one : '\n' ∉ line
  visible : trim line ≠ []
  back : trimEnd line = line

theorem not_mem_of_mem_splitOn {text line : Text} (h : line ∈ text.splitOn '\n') : '\n' ∉ line := by
  induction text generalizing line with
  | nil => simp_all
  | cons c text ih =>
    rw [List.splitOn_cons_eq_if_modifyHead] at h
    split at h
    · obtain rfl | h := List.mem_cons.mp h
      · exact List.not_mem_nil
      · exact ih h
    · rename_i hc
      cases hsplit : text.splitOn '\n' with
      | nil => exact absurd hsplit (List.splitOn_ne_nil '\n' text)
      | cons first others =>
        rw [hsplit, List.modifyHead_cons] at h
        obtain rfl | h := List.mem_cons.mp h
        · have hfirst : '\n' ∉ first := ih (by rw [hsplit]; exact List.mem_cons_self)
          simp only [beq_iff_eq] at hc
          simp [hfirst, Ne.symm hc]
        · exact ih (by rw [hsplit]; exact List.mem_cons_of_mem _ h)

theorem isTextLine_of_mem {description line : Text} (h : line ∈ textLines description) : IsTextLine line := by
  obtain ⟨line', hmem, rfl⟩ := List.mem_map.mp h
  obtain ⟨hsplit, hvisible⟩ := List.mem_filter.mp hmem
  simp only [ne_eq, decide_not, Bool.not_eq_true', decide_eq_false_iff_not] at hvisible
  refine ⟨fun hnl => not_mem_of_mem_splitOn hsplit ((trimEnd_front line').subset hnl), ?_,
    trimEnd_trimEnd line'⟩
  rw [ne_eq, trim_trimEnd_eq_nil_iff]
  exact hvisible

theorem textLines_intercalate {lines : List Text} (h : ∀ line ∈ lines, IsTextLine line) :
    textLines (['\n'].intercalate lines) = lines := by
  by_cases hnil : lines = []
  · rw [hnil]
    decide
  · rw [textLines, List.splitOn_intercalate '\n' (fun line hline => (h line hline).one) hnil,
      List.filter_eq_self.mpr (fun line hline => by simpa using (h line hline).visible)]
    conv_rhs => rw [← List.map_id lines]
    exact List.map_congr_left (fun line hline => (h line hline).back)

/-- A line that does not start with a blank. -/
def isFlat : Text → Bool
  | [] => false
  | c :: _ => !isBlank c

/-- The lines of a description that are read back. -/
def flatLines (description : Text) : List Text := (textLines description).filter isFlat

theorem isTextLine_of_mem_flatLines {description line : Text} (h : line ∈ flatLines description) :
    IsTextLine line := isTextLine_of_mem (List.mem_filter.mp h).1

theorem intercalate_concat (lines : List Text) (line : Text) :
    ['\n'].intercalate (lines ++ [line]) =
      (if lines = [] then [] else ['\n'].intercalate lines ++ ['\n']) ++ line := by
  induction lines with
  | nil => simp
  | cons first lines ih =>
    by_cases hnil : lines = []
    · simp [hnil]
    · have hne : lines ++ [line] ≠ [] := by simp
      rw [List.cons_append, List.intercalate_cons_of_ne_nil hne, ih, List.intercalate_cons_of_ne_nil hnil]
      simp [hnil]

theorem intercalate_eq_nil_iff {lines : List Text} (h : ∀ line ∈ lines, IsTextLine line) :
    ['\n'].intercalate lines = [] ↔ lines = [] := by
  constructor
  · intro hnil
    have hlines := textLines_intercalate h
    rw [hnil] at hlines
    rw [← hlines]
    decide
  · rintro rfl
    rfl

/-! ## The lines of an item -/

/-- An item under a heading, as it is read back. -/
def reread (phase : Option Text) (item : TaskItem) : TaskItem :=
  { readItem item with phase := phase, description := ['\n'].intercalate (flatLines item.description) }

namespace Parsing

@[simp] theorem close_phases (s : Parsing) : s.close.phases = s.phases := rfl

@[simp] theorem close_items (s : Parsing) : s.close.items = s.allItems := rfl

@[simp] theorem close_phase (s : Parsing) : s.close.phase = s.phase := rfl

@[simp] theorem close_current (s : Parsing) : s.close.current = none := rfl

@[simp] theorem allItems_close (s : Parsing) : s.close.allItems = s.allItems := by simp [allItems]

theorem close_of_none {s : Parsing} (h : s.current = none) : s.close = s := by
  cases s
  cases h
  simp [close, allItems]

theorem phaseLine?_indented (line : Text) : phaseLine? (' ' :: ' ' :: line) = none := by
  simp [phaseLine?, after]

theorem itemLine?_indented (line : Text) : itemLine? (' ' :: ' ' :: line) = none := rfl

theorem step_nil (s : Parsing) : s.step [] = s.close := by
  unfold step
  cases hcurrent : s.current with
  | none => exact (close_of_none hcurrent).symm
  | some item => rfl

theorem step_itemLine (s : Parsing) {item : TaskItem} (h : item.Wellformed) :
    s.step (itemLine item) = { s.close with current := some { readItem item with phase := s.phase } } := by
  have hphase : phaseLine? (itemLine item) = none := by simp [phaseLine?, itemLine, after]
  rw [step, hphase, itemLine?_itemLine h]

theorem step_phaseLine (s : Parsing) {phase : PhaseInfo} (h : phase.Wellformed) (htitle : phase.title ≠ []) :
    s.step (phaseLine phase) =
      { s.close with phases := s.phases ++ [phase], phase := some phase.id } := by
  rw [step, phaseLine?_phaseLine h, if_neg htitle]

theorem step_textLine (s : Parsing) {item : TaskItem} {line : Text} (h : IsTextLine line)
    (hcurrent : s.current = some item) :
    s.step (' ' :: ' ' :: line) =
      if isFlat line then { s with current := some (addLine (' ' :: ' ' :: line) item) } else s := by
  have hindented : isIndented (' ' :: ' ' :: line) = isFlat line := by cases line <;> rfl
  have hvisible : trim (' ' :: ' ' :: line) ≠ [] := by
    intro hnil
    rw [trim_eq_nil_iff] at hnil
    exact h.visible (trim_eq_nil_iff.mpr fun c hc => hnil c (by simp [hc]))
  rw [step, phaseLine?_indented, itemLine?_indented]
  simp only [hcurrent, hindented, if_neg hvisible]

theorem foldl_textLines (s : Parsing) (item : TaskItem) {lines : List Text} (kept : List Text)
    (hlines : ∀ line ∈ lines, IsTextLine line) (hkept : ∀ line ∈ kept, IsTextLine line)
    (hcurrent : s.current = some { item with description := ['\n'].intercalate kept }) :
    (lines.map (fun line => ' ' :: ' ' :: line)).foldl step s =
      { s with current := some { item with
          description := ['\n'].intercalate (kept ++ lines.filter isFlat) } } := by
  induction lines generalizing s kept with
  | nil =>
    cases s
    cases hcurrent
    simp
  | cons line lines ih =>
    have hline := hlines line List.mem_cons_self
    have hrest : ∀ l ∈ lines, IsTextLine l := fun l hl => hlines l (List.mem_cons_of_mem line hl)
    rw [List.map_cons, List.foldl_cons, step_textLine s hline hcurrent, List.filter_cons]
    by_cases hflat : isFlat line
    · have hkept' : ∀ l ∈ kept ++ [line], IsTextLine l := by
        intro l hl
        obtain hl | hl := List.mem_append.mp hl
        · exact hkept l hl
        · rw [List.mem_singleton.mp hl]
          exact hline
      have hdescription : (addLine (' ' :: ' ' :: line)
          { item with description := ['\n'].intercalate kept }) =
          { item with description := ['\n'].intercalate (kept ++ [line]) } := by
        simp only [addLine, intercalate_eq_nil_iff hkept, intercalate_concat, List.drop_succ_cons,
          List.drop_zero, hline.back]
      rw [if_pos hflat, if_pos hflat, hdescription, ih _ _ hrest hkept' rfl]
      simp
    · rw [if_neg hflat, if_neg hflat, ih s kept hrest hkept hcurrent]

theorem foldl_itemLines (s : Parsing) {item : TaskItem} (h : item.Wellformed) :
    (itemLines item).foldl step s = { s.close with current := some (reread s.phase item) } := by
  have hdescription : (readItem item).description = [] := by
    unfold readItem
    split <;> rfl
  rw [itemLines, List.foldl_cons, step_itemLine s h]
  rw [foldl_textLines _ { readItem item with phase := s.phase } []
    (fun line hline => isTextLine_of_mem hline) (fun line hline => by cases hline)
    (by simp [hdescription])]
  rfl

theorem foldl_items (s : Parsing) {items : List TaskItem} (h : ∀ item ∈ items, item.Wellformed) :
    ((items.flatMap itemLines).foldl step s).close =
      ⟨s.phases, s.allItems ++ items.map (reread s.phase), none, s.phase⟩ := by
  induction items generalizing s with
  | nil => simp [close]
  | cons item items ih =>
    rw [List.flatMap_cons, List.foldl_append, foldl_itemLines s (h item List.mem_cons_self),
      ih _ fun i hi => h i (List.mem_cons_of_mem item hi)]
    simp [allItems]

theorem foldl_phase (s : Parsing) {phase : PhaseInfo} {items : List TaskItem} (h : phase.Wellformed)
    (htitle : phase.title ≠ []) (hitems : ∀ item ∈ items, item.Wellformed) :
    (([] :: phaseLine phase :: [] :: items.flatMap itemLines).foldl step s).close =
      ⟨s.phases ++ [phase], s.allItems ++ items.map (reread (some phase.id)), none, some phase.id⟩ := by
  rw [List.foldl_cons, List.foldl_cons, List.foldl_cons, step_nil, step_phaseLine _ h htitle, step_nil,
    foldl_items _ hitems]
  simp [allItems]

theorem foldl_phases (s : Parsing) {phases : List PhaseInfo} (items : Text → List TaskItem)
    (h : ∀ phase ∈ phases, phase.Wellformed) (htitles : ∀ phase ∈ phases, phase.title ≠ [])
    (hitems : ∀ id, ∀ item ∈ items id, item.Wellformed) :
    ∃ last, ((phases.flatMap (fun phase =>
      [] :: phaseLine phase :: [] :: (items phase.id).flatMap itemLines)).foldl step s).close =
        ⟨s.phases ++ phases,
          s.allItems ++ phases.flatMap (fun phase => (items phase.id).map (reread (some phase.id))),
          none, last⟩ := by
  induction phases generalizing s with
  | nil => exact ⟨s.phase, by simp [close]⟩
  | cons phase phases ih =>
    rw [List.flatMap_cons, List.foldl_append]
    have hphase := foldl_phase s (h phase List.mem_cons_self) (htitles phase List.mem_cons_self)
      (hitems phase.id)
    generalize ([] :: phaseLine phase :: [] :: (items phase.id).flatMap itemLines).foldl step s = next
      at hphase ⊢
    obtain ⟨last, hlast⟩ := ih next (fun p hp => h p (List.mem_cons_of_mem phase hp))
      fun p hp => htitles p (List.mem_cons_of_mem phase hp)
    refine ⟨last, ?_⟩
    have hphases := congrArg Parsing.phases hphase
    have hall := congrArg Parsing.items hphase
    simp only [close_phases, close_items] at hphases hall
    rw [hlast, hphases, hall]
    simp

/-- The headings of the lines, in order. -/
theorem phases_foldl (lines : List Text) (s : Parsing) :
    (lines.foldl step s).phases = s.phases ++ lines.filterMap phaseLine? := by
  induction lines generalizing s with
  | nil => simp
  | cons line lines ih =>
    rw [List.foldl_cons, ih]
    unfold step
    cases hphase : phaseLine? line with
    | some phase => simp [hphase]
    | none =>
      cases itemLine? line with
      | some item => simp [hphase]
      | none =>
        cases s.current with
        | none => simp [hphase]
        | some item =>
          dsimp only
          split
          · simp [hphase]
          · split <;> simp [hphase]

end Parsing

/-! ## The file -/

/-- The items of a plan as they are read back: those under no heading come first. -/
def rereadItems (plan : LoopPlan) : List TaskItem :=
  (plan.items.filter (unheaded plan)).map (reread none) ++
    plan.phases.flatMap (fun phase => (members plan phase.id).map (reread (some phase.id)))

variable {plan : LoopPlan}

theorem not_mem_itemLines {item : TaskItem} (h : item.Wellformed) {line : Text} (hline : line ∈ itemLines item) :
    '\n' ∉ line := by
  obtain rfl | hmem := List.mem_cons.mp hline
  · have hid := not_mem_of_oneLine (oneLine_digits h.id.digits)
    have htitle := not_mem_of_oneLine h.line
    have hsuffix := not_mem_of_oneLine (oneLine_itemSuffix item.attempts item.repair)
    have hmark : '\n' ≠ statusMark item.status := by cases item.status <;> decide
    simp [itemLine, hid, htitle, hsuffix, hmark]
  · obtain ⟨line', hline', rfl⟩ := List.mem_map.mp hmem
    simp [(isTextLine_of_mem hline').one]

theorem not_mem_phaseLine {phase : PhaseInfo} (h : phase.Wellformed) : '\n' ∉ phaseLine phase := by
  have hid := not_mem_of_oneLine (oneLine_digits h.id.digits)
  have htitle := not_mem_of_oneLine h.line
  have hrepairs := not_mem_of_oneLine (oneLine_digits (isDigit_decimal phase.repairs))
  have hbuilds := not_mem_of_oneLine (oneLine_digits (isDigit_decimal phase.builds))
  have hword : '\n' ∉ verifyWord phase.verify := by cases phase.verify <;> decide
  simp [phaseLine, phaseSuffix, hid, htitle, hrepairs, hbuilds, hword]

theorem not_mem_flatMap {items : List TaskItem} (h : ∀ item ∈ items, item.Wellformed) {line : Text}
    (hline : line ∈ items.flatMap itemLines) : '\n' ∉ line := by
  obtain ⟨item, hitem, hline⟩ := List.mem_flatMap.mp hline
  exact not_mem_itemLines (h item hitem) hline

theorem not_mem_bodyLines (h : plan.Wellformed) {line : Text} (hline : line ∈ bodyLines plan) :
    '\n' ∉ line := by
  unfold bodyLines at hline
  split at hline
  · exact not_mem_flatMap h.items hline
  · obtain hline | hline := List.mem_append.mp hline
    · exact not_mem_flatMap (fun item hitem => h.items item (List.mem_filter.mp hitem).1) hline
    · obtain ⟨phase, hphase, hline⟩ := List.mem_flatMap.mp hline
      simp only [List.mem_cons] at hline
      obtain rfl | rfl | rfl | hline := hline
      · exact List.not_mem_nil
      · exact not_mem_phaseLine (h.phases phase hphase)
      · exact List.not_mem_nil
      · exact not_mem_flatMap (fun item hitem => h.items item (List.mem_filter.mp hitem).1) hline

theorem not_mem_headerLines : ∀ line ∈ headerLines, '\n' ∉ line := by decide +kernel

theorem foldl_headerLines :
    headerLines.foldl Parsing.step ⟨[], [], none, none⟩ = ⟨[], [], none, none⟩ := by decide +kernel

theorem splitOn_renderTodoPlan (h : plan.Wellformed) :
    (renderTodoPlan plan).splitOn '\n' = headerLines ++ bodyLines plan ++ [[]] := by
  have hrender : renderTodoPlan plan = ['\n'].intercalate (headerLines ++ bodyLines plan ++ [[]]) := by
    rw [intercalate_concat, if_neg (by simp [headerLines]), List.append_nil]
    rfl
  rw [hrender, List.splitOn_intercalate]
  · intro line hline
    obtain hline | hline := List.mem_append.mp hline
    · obtain hline | hline := List.mem_append.mp hline
      · exact not_mem_headerLines line hline
      · exact not_mem_bodyLines h hline
    · rw [List.mem_singleton.mp hline]
      exact List.not_mem_nil
  · simp

theorem foldl_renderTodoPlan (h : plan.Wellformed) :
    ((renderTodoPlan plan).splitOn '\n').foldl Parsing.step ⟨[], [], none, none⟩ =
      ((bodyLines plan).foldl Parsing.step ⟨[], [], none, none⟩).close := by
  rw [splitOn_renderTodoPlan h, List.foldl_append, List.foldl_append, foldl_headerLines, List.foldl_cons,
    List.foldl_nil, Parsing.step_nil]

theorem filter_unheaded_of_nil (hnil : plan.phases = []) : plan.items.filter (unheaded plan) = plan.items := by
  refine List.filter_eq_self.mpr fun item _ => ?_
  unfold unheaded
  cases item.phase <;> simp [hnil]

theorem foldl_bodyLines (h : plan.Wellformed) (htitles : ∀ phase ∈ plan.phases, phase.title ≠ []) :
    ∃ last, ((bodyLines plan).foldl Parsing.step ⟨[], [], none, none⟩).close =
      ⟨plan.phases, rereadItems plan, none, last⟩ := by
  unfold bodyLines
  split
  · rename_i hnil
    refine ⟨none, ?_⟩
    rw [Parsing.foldl_items _ h.items, rereadItems, filter_unheaded_of_nil hnil, hnil]
    simp [Parsing.allItems]
  · have hunheaded : ∀ item ∈ plan.items.filter (unheaded plan), item.Wellformed :=
      fun item hitem => h.items item (List.mem_filter.mp hitem).1
    have hfirst := Parsing.foldl_items ⟨[], [], none, none⟩ hunheaded
    rw [List.foldl_append]
    generalize ((plan.items.filter (unheaded plan)).flatMap itemLines).foldl Parsing.step
      ⟨[], [], none, none⟩ = next at hfirst ⊢
    obtain ⟨last, hlast⟩ := Parsing.foldl_phases next (members plan) h.phases htitles
      fun id item hitem => h.items item (List.mem_filter.mp hitem).1
    have hphases := congrArg Parsing.phases hfirst
    have hall := congrArg Parsing.items hfirst
    simp only [Parsing.close_phases, Parsing.close_items] at hphases hall
    refine ⟨last, ?_⟩
    rw [hlast, hphases, hall, rereadItems]
    simp [Parsing.allItems]

/-- What is read back of a plan whose phases all have a title. -/
theorem parseTodoPlan_renderTodoPlan (h : plan.Wellformed) (htitles : ∀ phase ∈ plan.phases, phase.title ≠ []) :
    parseTodoPlan (renderTodoPlan plan) =
      if rereadItems plan = [] then none else some ⟨plan.phases, rereadItems plan⟩ := by
  obtain ⟨last, hlast⟩ := foldl_bodyLines h htitles
  rw [parseTodoPlan, foldl_renderTodoPlan h, hlast]
  simp [Parsing.allItems]

theorem filterMap_itemLines {item : TaskItem} : (itemLines item).filterMap phaseLine? = [] := by
  refine List.filterMap_eq_nil_iff.mpr fun line hline => ?_
  obtain rfl | hmem := List.mem_cons.mp hline
  · simp [phaseLine?, itemLine, after]
  · obtain ⟨line', -, rfl⟩ := List.mem_map.mp hmem
    exact Parsing.phaseLine?_indented line'

theorem filterMap_flatMap (items : List TaskItem) : (items.flatMap itemLines).filterMap phaseLine? = [] := by
  induction items with
  | nil => rfl
  | cons item items ih => rw [List.flatMap_cons, List.filterMap_append, filterMap_itemLines, ih]; rfl

/-- Of the phases, those with a title are read back. -/
theorem filterMap_bodyLines (h : plan.Wellformed) :
    (bodyLines plan).filterMap phaseLine? = plan.phases.filter (fun phase => phase.title ≠ []) := by
  unfold bodyLines
  split
  · rename_i hnil
    rw [filterMap_flatMap, hnil, List.filter_nil]
  · rw [List.filterMap_append, filterMap_flatMap, List.nil_append]
    have hphases := h.phases
    generalize plan.phases = phases at hphases
    induction phases with
    | nil => rfl
    | cons phase phases ih =>
      have hline := phaseLine?_phaseLine (hphases phase List.mem_cons_self)
      have hnil : phaseLine? [] = none := rfl
      rw [List.flatMap_cons, List.filterMap_append, ih fun p hp => hphases p (List.mem_cons_of_mem phase hp)]
      by_cases htitle : phase.title = []
      · simp [hnil, hline, htitle, filterMap_flatMap]
      · simp [hnil, hline, htitle, filterMap_flatMap]

theorem phases_of_parseTodoPlan (h : plan.Wellformed) {plan' : LoopPlan}
    (hparse : parseTodoPlan (renderTodoPlan plan) = some plan') :
    plan'.phases = plan.phases.filter (fun phase => phase.title ≠ []) := by
  unfold parseTodoPlan at hparse
  dsimp only at hparse
  split at hparse
  · cases hparse
  · cases hparse
    rw [foldl_renderTodoPlan h, Parsing.close_phases, Parsing.phases_foldl, filterMap_bodyLines h]
    rfl

end Haruspex.CodingLoop
