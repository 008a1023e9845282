import Haruspex.CodingLoop.Guided

/-! What every plan of the loop keeps: ids are numbers, and titles are single lines. -/
namespace Haruspex.CodingLoop
open JavaScript (isBlank Json)
open JavaScript.Chars
set_option autoImplicit false

variable {plan : LoopPlan}

theorem TaskItem.Wellformed.of_eq {i j : TaskItem} (h : i.Wellformed) (hid : j.id = i.id)
    (htitle : j.title = i.title) : j.Wellformed := by
  constructor
  · rw [hid]
    exact h.id
  · rw [htitle]
    exact h.line
  · rw [htitle]
    exact h.trimmed

theorem PhaseInfo.Wellformed.of_eq {p q : PhaseInfo} (h : p.Wellformed) (hid : q.id = p.id)
    (htitle : q.title = p.title) : q.Wellformed := by
  constructor
  · rw [hid]
    exact h.id
  · rw [htitle]
    exact h.line
  · rw [htitle]
    exact h.trimmed

/-! ## Plans from task lists -/

theorem oneLine_tidyTitle (title : String) : OneLine (tidyTitle title) :=
  (oneLine_collapse false title.toList).sublist (trim_sublist _)

theorem wellformed_phaseFor {lower : Text → Text} {phases : KeyedPhases} (title : String)
    (h : ∀ known ∈ phases, known.2.Wellformed) :
    ∀ known ∈ (phaseFor lower phases title).1, known.2.Wellformed := by
  unfold phaseFor
  dsimp only
  split
  · exact h
  · intro known hknown
    obtain hknown | hknown := List.mem_append.mp hknown
    · exact h known hknown
    · rw [List.mem_singleton.mp hknown]
      exact ⟨isId_positionId _, oneLine_tidyTitle title, trimmed_trim _⟩

theorem wellformed_addEntry {lower : Text → Text} {built : KeyedPhases × List TaskItem} (entry : Json)
    (h : (∀ known ∈ built.1, known.2.Wellformed) ∧ ∀ item ∈ built.2, item.Wellformed) :
    (∀ known ∈ (addEntry lower built entry).1, known.2.Wellformed) ∧
      ∀ item ∈ (addEntry lower built entry).2, item.Wellformed := by
  unfold addEntry
  dsimp only
  split
  · exact h
  · refine ⟨wellformed_phaseFor _ h.1, fun item hitem => ?_⟩
    obtain hitem | hitem := List.mem_append.mp hitem
    · exact h.2 item hitem
    · rw [List.mem_singleton.mp hitem]
      exact ⟨isId_positionId _, oneLine_tidyTitle _, trimmed_trim _⟩

theorem wellformed_normalizeTaskListPlan (lower : Text → Text) (raw : Json) :
    (normalizeTaskListPlan lower raw).Wellformed := by
  unfold normalizeTaskListPlan
  split
  · rename_i entries
    have hfold : ∀ built : KeyedPhases × List TaskItem,
        ((∀ known ∈ built.1, known.2.Wellformed) ∧ ∀ item ∈ built.2, item.Wellformed) →
        (∀ known ∈ (entries.foldl (addEntry lower) built).1, known.2.Wellformed) ∧
          ∀ item ∈ (entries.foldl (addEntry lower) built).2, item.Wellformed := by
      induction entries with
      | nil => exact fun built h => h
      | cons entry entries ih => exact fun built h => ih _ (wellformed_addEntry entry h)
    have hall := hfold ([], []) ⟨fun _ h => (nomatch h), fun _ h => (nomatch h)⟩
    refine ⟨fun phase hphase => ?_, hall.2⟩
    obtain ⟨known, hknown, rfl⟩ := List.mem_map.mp hphase
    exact hall.1 known hknown
  · exact ⟨fun _ h => (nomatch h), fun _ h => (nomatch h)⟩

/-! ## Plans that are read -/

structure Parsing.Wellformed (s : Parsing) : Prop where
  phases : ∀ phase ∈ s.phases, phase.Wellformed
  items : ∀ item ∈ s.allItems, item.Wellformed

theorem Parsing.wellformed_step {s : Parsing} (h : s.Wellformed) (line : Text) : (s.step line).Wellformed := by
  have hclose : s.close.Wellformed := ⟨h.phases, by simpa [allItems, close] using h.items⟩
  unfold step
  split
  · rename_i phase hphase
    refine ⟨fun p hp => ?_, hclose.items⟩
    obtain hp | hp := List.mem_append.mp hp
    · exact h.phases p hp
    · rw [List.mem_singleton.mp hp]
      exact wellformed_of_phaseLine? hphase
  · split
    · rename_i item hitem
      refine ⟨h.phases, fun i hi => ?_⟩
      obtain hi | hi := List.mem_append.mp hi
      · exact h.items i hi
      · rw [Option.mem_toList.mp hi |> Option.some.inj |>.symm]
        exact (wellformed_of_itemLine? hitem).of_eq rfl rfl
    · split
      · rename_i item hcurrent
        split
        · refine ⟨h.phases, fun i hi => ?_⟩
          have hitem := h.items item (by simp [allItems, hcurrent])
          obtain hi | hi := List.mem_append.mp hi
          · exact h.items i (List.mem_append_left _ hi)
          · rw [Option.mem_toList.mp hi |> Option.some.inj |>.symm]
            exact hitem.of_eq rfl rfl
        · split
          · exact hclose
          · exact h
      · exact h

theorem wellformed_parseTodoPlan {text : Text} (h : parseTodoPlan text = some plan) : plan.Wellformed := by
  have hfold : ∀ (lines : List Text) (s : Parsing), s.Wellformed → (lines.foldl Parsing.step s).Wellformed := by
    intro lines
    induction lines with
    | nil => exact fun s hs => hs
    | cons line lines ih => exact fun s hs => ih _ (Parsing.wellformed_step hs line)
  unfold parseTodoPlan at h
  dsimp only at h
  split at h
  · cases h
  · cases h
    have hall := hfold (text.splitOn '\n') ⟨[], [], none, none⟩
      ⟨fun _ h => (nomatch h), fun _ h => (nomatch h)⟩
    exact ⟨hall.phases, hall.items⟩

theorem wellformed_ensurePhased (h : plan.Wellformed) : (ensurePhased plan).Wellformed := by
  unfold ensurePhased
  split
  · exact h
  · refine ⟨fun phase hphase => ?_, fun item hitem => ?_⟩
    · have hchars : wholePlan = ['W', 'h', 'o', 'l', 'e', ' ', 'p', 'l', 'a', 'n'] := by decide +kernel
      rw [List.mem_singleton.mp hphase, hchars]
      exact ⟨isId_positionId 1, by decide, by simp; decide, by simp; decide⟩
    · obtain ⟨item', hitem', rfl⟩ := List.mem_map.mp hitem
      exact (h.items item' hitem').of_eq rfl rfl

/-! ## Transitions -/

/-- A change that leaves ids and titles. -/
theorem LoopPlan.Wellformed.map_items (h : plan.Wellformed) {change : TaskItem → TaskItem}
    (hchange : ∀ i, (change i).id = i.id ∧ (change i).title = i.title) :
    ∀ item ∈ plan.items.map change, item.Wellformed := by
  intro item hitem
  obtain ⟨item', hitem', rfl⟩ := List.mem_map.mp hitem
  exact (h.items item' hitem').of_eq (hchange item').1 (hchange item').2

theorem LoopPlan.Wellformed.map_phases (h : plan.Wellformed) (phaseId : Text) {change : PhaseInfo → PhaseInfo}
    (hchange : ∀ p, (change p).id = p.id ∧ (change p).title = p.title) :
    ∀ phase ∈ (plan.withPhase phaseId change).phases, phase.Wellformed := by
  intro phase hphase
  obtain ⟨phase', hphase', rfl⟩ := List.mem_map.mp hphase
  split
  · exact (h.phases phase' hphase').of_eq (hchange phase').1 (hchange phase').2
  · exact h.phases phase' hphase'

theorem wellformed_markDone (h : plan.Wellformed) (id : Text) :
    ({ plan with items := markDone plan.items id } : LoopPlan).Wellformed := by
  refine ⟨h.phases, h.map_items fun i => ?_⟩
  split <;> exact ⟨rfl, rfl⟩

theorem wellformed_markPhaseItemsDone (h : plan.Wellformed) (phaseId : Text) :
    (markPhaseItemsDone plan phaseId).Wellformed := by
  refine ⟨h.phases, h.map_items fun i => ?_⟩
  split <;> exact ⟨rfl, rfl⟩

theorem wellformed_recordFailure (h : plan.Wellformed) (id : Text) (maxAttempts : ℕ) :
    ({ plan with items := recordFailure plan.items id maxAttempts } : LoopPlan).Wellformed := by
  refine ⟨h.phases, h.map_items fun i => ?_⟩
  split <;> exact ⟨rfl, rfl⟩

theorem wellformed_setPhaseVerify (h : plan.Wellformed) (phaseId : Text) (verify : PhaseVerifyStatus) :
    (setPhaseVerify plan phaseId verify).Wellformed :=
  ⟨h.map_phases phaseId fun _ => ⟨rfl, rfl⟩, h.items⟩

theorem wellformed_recordPhaseBuild (h : plan.Wellformed) (phaseId : Text) :
    (recordPhaseBuild plan phaseId).Wellformed :=
  ⟨h.map_phases phaseId fun _ => ⟨rfl, rfl⟩, h.items⟩

theorem wellformed_recordPhaseBuildFailure (h : plan.Wellformed) (phaseId : Text) :
    (recordPhaseBuildFailure plan phaseId).Wellformed := by
  unfold recordPhaseBuildFailure
  dsimp only
  split
  · refine ⟨h.map_phases phaseId fun _ => ⟨rfl, rfl⟩, h.map_items fun i => ?_⟩
    split <;> exact ⟨rfl, rfl⟩
  · exact ⟨h.map_phases phaseId fun _ => ⟨rfl, rfl⟩, h.items⟩

/-- A repair item is put somewhere among the items. -/
theorem insertAfterPhase_eq (phaseId : Text) (item : TaskItem) (items : List TaskItem) :
    ∃ front back, items = front ++ back ∧ insertAfterPhase phaseId item items = front ++ item :: back := by
  have hsplit := List.takeWhile_append_dropWhile (p := fun i : TaskItem => decide (i.phase ≠ some phaseId))
    (l := items.reverse)
  have hitems := congrArg List.reverse hsplit
  rw [List.reverse_append, List.reverse_reverse] at hitems
  unfold insertAfterPhase
  dsimp only
  generalize items.reverse.takeWhile (fun i => decide (i.phase ≠ some phaseId)) = after at hitems ⊢
  split
  · exact ⟨[], items, rfl, rfl⟩
  · refine ⟨(items.reverse.dropWhile (fun i => decide (i.phase ≠ some phaseId))).reverse, after.reverse,
      hitems.symm, ?_⟩
    congr 1
    conv_lhs => rw [← hitems]
    rw [List.take_left']
    have hlength := congrArg List.length hitems
    simp only [List.length_append, List.length_reverse] at hlength ⊢
    omega

theorem mem_insertAfterPhase {phaseId : Text} {item i : TaskItem} {items : List TaskItem} :
    i ∈ insertAfterPhase phaseId item items ↔ i = item ∨ i ∈ items := by
  obtain ⟨front, back, hitems, hinsert⟩ := insertAfterPhase_eq phaseId item items
  rw [hinsert, hitems]
  simp only [List.mem_append, List.mem_cons]
  tauto

theorem wellformed_repairItem {phaseId : Text} (hid : IsId phaseId) (failureOutput : Text)
    (previousRepairNote : Option Text) :
    (repairItem plan phaseId failureOutput previousRepairNote).Wellformed := by
  refine ⟨isId_positionId _, ?_, ?_, ?_⟩
  · have hcycle := oneLine_digits (isDigit_decimal (nextCycle plan phaseId))
    have hmax := oneLine_digits (isDigit_decimal maxPhaseRepairCycles)
    exact ((((((OneLine.append (by decide +kernel) (oneLine_digits hid.digits)).append
      (by decide +kernel)).append hcycle).append (by decide +kernel)).append hmax).append (by decide +kernel))
  · have hstart : "Repair phase ".toList = 'R' :: "epair phase ".toList := by decide +kernel
    simp only [repairItem, hstart, List.cons_append, List.head?_cons]
    rintro c ⟨⟩
    decide
  · have hend : ")".toList = [')'] := by decide +kernel
    simp only [repairItem, hend, List.getLast?_concat]
    rintro c ⟨⟩
    decide

theorem wellformed_beginRepairCycle (h : plan.Wellformed) {phaseId : Text} (hid : IsId phaseId)
    (failureOutput : Text) (previousRepairNote : Option Text) :
    (beginRepairCycle plan phaseId failureOutput previousRepairNote).Wellformed := by
  refine ⟨h.map_phases phaseId fun _ => ⟨rfl, rfl⟩, fun item hitem => ?_⟩
  obtain rfl | hitem := mem_insertAfterPhase.mp hitem
  · exact wellformed_repairItem hid failureOutput previousRepairNote
  · exact h.items item hitem

end Haruspex.CodingLoop
