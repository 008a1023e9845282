import Haruspex.CodingLoop.LoopEnds
import Mathlib.Data.List.Forall2
import Mathlib.Data.List.Nodup

/-! What the passes of the loop keep: items, ids, headings, and what was verified. -/
namespace Haruspex.CodingLoop
open JavaScript (Json)
set_option autoImplicit false

variable {lower : Text → Text} {before : Text → Text → Bool} {start plan plan' : LoopPlan} {calls : Calls}
  {phaseId id : Text}

/-! ## Ids by position -/

theorem parseInt_positionId (n : ℕ) : parseInt (positionId n) = n := by
  have hdecimal : Nat.ofDigitChars 10 (decimal n) 0 = n := parseInt_decimal n
  rw [parseInt, positionId, List.leftpad, Nat.ofDigitChars_append, Nat.ofDigitChars_replicate_zero,
    Nat.mul_zero, hdecimal]

theorem positionId_injective : Function.Injective positionId := by
  intro m n h
  rw [← parseInt_positionId m, h, parseInt_positionId]

/-- The ids count up from one. -/
def Numbered (ids : List Text) : Prop := ids = (List.range ids.length).map (fun k => positionId (k + 1))

theorem numbered_nil : Numbered [] := rfl

theorem Numbered.concat {ids : List Text} (h : Numbered ids) : Numbered (ids ++ [positionId (ids.length + 1)]) := by
  unfold Numbered
  rw [List.length_append, List.length_singleton, List.range_succ, List.map_append, ← h]
  rfl

theorem Numbered.append {ids : List Text} (h : Numbered ids) (n : ℕ) :
    Numbered (ids ++ (List.range n).map (fun k => positionId (ids.length + k + 1))) := by
  induction n with
  | zero =>
    rw [List.range_zero, List.map_nil, List.append_nil]
    exact h
  | succ n ih =>
    have hnext := ih.concat
    rw [List.length_append, List.length_map, List.length_range] at hnext
    rw [List.range_succ, List.map_append, ← List.append_assoc]
    exact hnext

theorem Numbered.nodup {ids : List Text} (h : Numbered ids) : ids.Nodup := by
  rw [h]
  refine List.Nodup.map (fun j k hjk => ?_) List.nodup_range
  have heq := positionId_injective hjk
  omega

/-- A new position is that of no item. -/
theorem positionId_maxId_not_mem (items : List TaskItem) :
    positionId (maxId items + 1) ∉ items.map TaskItem.id := by
  intro hmem
  obtain ⟨i, hi, heq⟩ := List.mem_map.mp hmem
  have hfold : ∀ (l : List TaskItem) (m : ℕ), m ≤ l.foldl (fun m i => max m (parseInt i.id)) m ∧
      ∀ i ∈ l, parseInt i.id ≤ l.foldl (fun m i => max m (parseInt i.id)) m := by
    intro l
    induction l with
    | nil => exact fun m => ⟨Nat.le_refl m, fun i hi => nomatch hi⟩
    | cons j l ih =>
      intro m
      obtain ⟨hstart, hall⟩ := ih (max m (parseInt j.id))
      refine ⟨Nat.le_trans (Nat.le_max_left ..) hstart, fun i hi => ?_⟩
      obtain rfl | hi := List.mem_cons.mp hi
      · exact Nat.le_trans (Nat.le_max_right ..) hstart
      · exact hall i hi
  have hle : parseInt i.id ≤ maxId items := (hfold items 0).2 i hi
  rw [heq, parseInt_positionId] at hle
  omega

/-! ## Every item's phase has a heading -/

theorem phaseFor_spec (phases : KeyedPhases) (title : String) :
    (∀ known ∈ phases, known ∈ (phaseFor lower phases title).1) ∧
      (phaseFor lower phases title).2 ∈ (phaseFor lower phases title).1.map (fun known => known.2.id) := by
  unfold phaseFor
  dsimp only
  split
  · rename_i known hfind
    exact ⟨fun _ h => h, List.mem_map_of_mem (List.mem_of_find?_eq_some hfind)⟩
  · refine ⟨fun known h => List.mem_append_left _ h, ?_⟩
    rw [List.map_append]
    exact List.mem_append_right _ List.mem_cons_self

theorem headed_normalizeTaskListPlan (raw : Json) : Headed (normalizeTaskListPlan lower raw) := by
  unfold normalizeTaskListPlan
  split
  · rename_i entries
    have hfold : ∀ built : KeyedPhases × List TaskItem,
        (∀ i ∈ built.2, ∀ id ∈ i.phase, id ∈ built.1.map (fun known => known.2.id)) →
        ∀ i ∈ (entries.foldl (addEntry lower) built).2, ∀ id ∈ i.phase,
          id ∈ (entries.foldl (addEntry lower) built).1.map (fun known => known.2.id) := by
      induction entries with
      | nil => exact fun built h => h
      | cons entry entries ih =>
        refine fun built h => ih _ ?_
        unfold addEntry
        dsimp only
        split
        · exact h
        · intro i hi id hid
          obtain ⟨hsub, hmem⟩ := @phaseFor_spec lower built.1
            (if JavaScript.Chars.trim (stringField entry "phase").toList = [] then "Whole plan"
              else stringField entry "phase")
          obtain hi | hi := List.mem_append.mp hi
          · obtain ⟨known, hknown, heq⟩ := List.mem_map.mp (h i hi id hid)
            exact List.mem_map.mpr ⟨known, hsub known hknown, heq⟩
          · rw [List.mem_singleton.mp hi] at hid
            cases hid
            exact hmem
    have hall := hfold ([], []) fun _ h => nomatch h
    intro i hi id hid
    rw [List.map_map]
    exact hall i hi id hid
  · exact fun _ h => nomatch h

theorem headed_addFile {planDir : Text} {file : PlanFile} (h : Headed plan)
    (hadd : addFile planDir plan file = some plan') : Headed plan' := by
  obtain ⟨⟨title, rest⟩, -, hadd⟩ := Option.bind_eq_some_iff.mp hadd
  cases hadd
  intro i hi id hid
  rw [List.map_append]
  obtain hi | hi := List.mem_append.mp hi
  · exact List.mem_append_left _ (h i hi id hid)
  · obtain ⟨k, hk, rfl⟩ := List.mem_mapIdx.mp hi
    cases hid
    exact List.mem_append_right _ List.mem_cons_self

/-- A property of the plans of a directory, file by file. -/
theorem parseGuidedPlan_induction {motive : LoopPlan → Prop} (hnil : motive ⟨[], []⟩) {planDir : Text}
    (hadd : ∀ plan plan' file, motive plan → addFile planDir plan file = some plan' → motive plan')
    {files : List PlanFile} (h : parseGuidedPlan before files planDir = some plan) : motive plan := by
  unfold parseGuidedPlan at h
  dsimp only at h
  split at h
  · cases h
  · obtain ⟨plan', hfold, h⟩ := Option.bind_eq_some_iff.mp h
    split at h
    · cases h
    · cases h
      generalize (⟨[], []⟩ : LoopPlan) = first at hfold hnil
      generalize List.mergeSort _ _ = phaseFiles at hfold
      induction phaseFiles generalizing first with
      | nil =>
        cases hfold
        exact hnil
      | cons file phaseFiles ih =>
        rw [List.foldlM_cons] at hfold
        obtain ⟨next, hnext, hfold⟩ := Option.bind_eq_some_iff.mp hfold
        exact ih next (hadd _ _ _ hnil hnext) hfold

theorem headed_parseTodoPlan {text : Text} (h : parseTodoPlan text = some plan) : Headed plan := by
  have hstep : ∀ (s : Parsing) (line : Text),
      (∀ id ∈ s.phase, id ∈ s.phases.map PhaseInfo.id) ∧ Headed ⟨s.phases, s.allItems⟩ →
      (∀ id ∈ (s.step line).phase, id ∈ (s.step line).phases.map PhaseInfo.id) ∧
        Headed ⟨(s.step line).phases, (s.step line).allItems⟩ := by
    rintro s line ⟨hphase, hitems⟩
    unfold Parsing.step
    split
    · rename_i phase _
      constructor
      · rintro id ⟨⟩
        simp
      · intro i hi id hid
        have hmem := hitems i (by simpa [Parsing.allItems] using hi) id hid
        simp only [List.map_append, List.mem_append]
        exact .inl hmem
    · split
      · refine ⟨hphase, fun i hi id hid => ?_⟩
        simp only [Parsing.allItems, List.mem_append] at hi
        obtain hi | hi := hi
        · exact hitems i hi id hid
        · simp only [Option.toList_some, List.mem_singleton] at hi
          rw [hi] at hid
          exact hphase id hid
      · split
        · rename_i item hcurrent
          split
          · refine ⟨hphase, fun i hi id hid => ?_⟩
            have hitem := hitems item (by simp [Parsing.allItems, hcurrent])
            simp only [Parsing.allItems, List.mem_append] at hi
            obtain hi | hi := hi
            · exact hitems i (List.mem_append_left _ hi) id hid
            · simp only [Option.toList_some, List.mem_singleton] at hi
              rw [hi] at hid
              exact hitem id hid
          · split
            · exact ⟨hphase, by simpa using hitems⟩
            · exact ⟨hphase, hitems⟩
        · exact ⟨hphase, hitems⟩
  have hfold : ∀ (lines : List Text) (s : Parsing),
      (∀ id ∈ s.phase, id ∈ s.phases.map PhaseInfo.id) ∧ Headed ⟨s.phases, s.allItems⟩ →
      Headed ⟨(lines.foldl Parsing.step s).phases, (lines.foldl Parsing.step s).allItems⟩ := by
    intro lines
    induction lines with
    | nil => exact fun s hs => hs.2
    | cons line lines ih => exact fun s hs => ih _ (hstep s line hs)
  unfold parseTodoPlan at h
  dsimp only at h
  split at h
  · cases h
  · cases h
    refine hfold _ _ ⟨?_, List.forall_mem_nil _⟩
    rintro id ⟨⟩

theorem headed_ensurePhased (h : Headed plan) : Headed (ensurePhased plan) := by
  unfold ensurePhased
  split
  · exact h
  · intro i hi id hid
    obtain ⟨i', -, rfl⟩ := List.mem_map.mp hi
    cases hid
    exact List.mem_cons_self

theorem headed_of_built (h : Built lower before plan) : Headed plan := by
  induction h with
  | normalized raw => exact headed_normalizeTaskListPlan raw
  | guided files planDir h =>
    exact parseGuidedPlan_induction (fun _ h => nomatch h) (fun _ _ _ h hadd => headed_addFile h hadd) h
  | resumed text h => exact headed_parseTodoPlan h
  | phased _ ih => exact headed_ensurePhased ih

/-! ## Items and ids -/

/-- An item without what the loop counts. -/
def TaskItem.fixed (i : TaskItem) : TaskItem := { i with status := .todo, attempts := 0 }

theorem fixed_markDone (items : List TaskItem) (id : Text) :
    (markDone items id).map TaskItem.fixed = items.map TaskItem.fixed := by
  rw [markDone, List.map_map]
  refine List.map_congr_left fun i _ => ?_
  rw [Function.comp_apply]
  split <;> rfl

theorem fixed_recordFailure (items : List TaskItem) (id : Text) (cap : ℕ) :
    (recordFailure items id cap).map TaskItem.fixed = items.map TaskItem.fixed := by
  rw [recordFailure, List.map_map]
  refine List.map_congr_left fun i _ => ?_
  rw [Function.comp_apply]
  split <;> rfl

theorem fixed_markPhaseItemsDone (plan : LoopPlan) (phaseId : Text) :
    (markPhaseItemsDone plan phaseId).items.map TaskItem.fixed = plan.items.map TaskItem.fixed := by
  rw [markPhaseItemsDone, List.map_map]
  refine List.map_congr_left fun i _ => ?_
  rw [Function.comp_apply]
  split <;> rfl

theorem fixed_recordPhaseBuildFailure (plan : LoopPlan) (phaseId : Text) :
    (recordPhaseBuildFailure plan phaseId).items.map TaskItem.fixed = plan.items.map TaskItem.fixed := by
  unfold recordPhaseBuildFailure
  dsimp only
  split
  · rw [List.map_map]
    refine List.map_congr_left fun i _ => ?_
    rw [Function.comp_apply]
    split <;> rfl
  · rfl

/-- A pass leaves the items as they are, but for what it counts, and a repair item that it adds. -/
theorem fixed_of_passed (h : Passed plan calls plan') :
    plan'.items.map TaskItem.fixed = plan.items.map TaskItem.fixed ∨
      ∃ phase note, phase ∈ plan.phases ∧ plan' = beginRepairCycle plan phase.id calls.output note := by
  cases h with
  | verified _ _ h => exact .inl rfl
  | gaveUp h _ => exact .inl rfl
  | repairing h _ note => exact .inr ⟨_, note, (phaseNeedingVerify_spec h).1, rfl⟩
  | fellShort h hphase => exact .inl (fixed_recordPhaseBuildFailure plan _)
  | built h hphase => exact .inl (fixed_markPhaseItemsDone (recordPhaseBuild plan _) _)
  | finished h => exact .inl (fixed_markDone _ _)
  | failed h cap _ => exact .inl (fixed_recordFailure _ _ cap)

theorem sublist_of_passed (h : Passed plan calls plan') :
    (plan.items.map TaskItem.fixed).Sublist (plan'.items.map TaskItem.fixed) := by
  obtain hsame | ⟨phase, note, -, rfl⟩ := fixed_of_passed h
  · rw [hsame]
  · obtain ⟨front, back, hitems, hinsert⟩ := insertAfterPhase_eq phase.id
      (repairItem plan phase.id calls.output note) plan.items
    change (plan.items.map TaskItem.fixed).Sublist ((insertAfterPhase phase.id
      (repairItem plan phase.id calls.output note) plan.items).map TaskItem.fixed)
    rw [hinsert, hitems]
    exact List.Sublist.map _ ((List.Sublist.refl front).append (List.sublist_cons_self _ back))

theorem ids_of_fixed {items items' : List TaskItem} (h : items'.map TaskItem.fixed = items.map TaskItem.fixed) :
    items'.map TaskItem.id = items.map TaskItem.id := by
  have hids := congrArg (List.map TaskItem.id) h
  rw [List.map_map, List.map_map] at hids
  exact hids

theorem nodup_items_of_passed (hnodup : (plan.items.map TaskItem.id).Nodup) (h : Passed plan calls plan') :
    (plan'.items.map TaskItem.id).Nodup := by
  obtain hsame | ⟨phase, note, -, rfl⟩ := fixed_of_passed h
  · rw [ids_of_fixed hsame]
    exact hnodup
  · have hnew := positionId_maxId_not_mem plan.items
    obtain ⟨front, back, hitems, hinsert⟩ := insertAfterPhase_eq phase.id
      (repairItem plan phase.id calls.output note) plan.items
    change ((insertAfterPhase phase.id (repairItem plan phase.id calls.output note) plan.items).map
      TaskItem.id).Nodup
    rw [hinsert, List.map_append, List.map_cons, List.nodup_middle, ← List.map_append, ← hitems]
    exact List.nodup_cons.mpr ⟨hnew, hnodup⟩

/-! ## Headings -/

theorem phases_recordPhaseBuildFailure (plan : LoopPlan) (phaseId : Text) :
    (recordPhaseBuildFailure plan phaseId).phases = (plan.withPhase phaseId (fun p =>
      { p with
        builds := nextBuild plan phaseId
        verify := if buildsExhausted plan phaseId then .blocked else p.verify })).phases := by
  unfold recordPhaseBuildFailure
  cases buildsExhausted plan phaseId <;> simp

/-- A pass changes the phases of one id at most, never an id or a title. -/
theorem phases_of_passed (h : Passed plan calls plan') :
    ∃ (phaseId : Text) (change : PhaseInfo → PhaseInfo),
      (∀ p, (change p).id = p.id ∧ (change p).title = p.title) ∧
        plan'.phases = (plan.withPhase phaseId change).phases := by
  cases h with
  | verified _ _ _ =>
    refine ⟨_, _, ?_, rfl⟩
    exact fun _ => ⟨rfl, rfl⟩
  | gaveUp _ _ =>
    refine ⟨_, _, ?_, rfl⟩
    exact fun _ => ⟨rfl, rfl⟩
  | repairing _ _ note =>
    refine ⟨_, _, ?_, rfl⟩
    exact fun _ => ⟨rfl, rfl⟩
  | fellShort _ _ =>
    refine ⟨_, _, ?_, phases_recordPhaseBuildFailure plan _⟩
    exact fun _ => ⟨rfl, rfl⟩
  | built _ _ =>
    refine ⟨_, _, ?_, rfl⟩
    exact fun _ => ⟨rfl, rfl⟩
  | finished _ =>
    refine ⟨[], id, fun _ => ⟨rfl, rfl⟩, ?_⟩
    simp [LoopPlan.withPhase]
  | failed _ cap _ =>
    refine ⟨[], id, fun _ => ⟨rfl, rfl⟩, ?_⟩
    simp [LoopPlan.withPhase]

def PhaseInfo.heading (p : PhaseInfo) : Text × Text := (p.id, p.title)

theorem headings_of_passed (h : Passed plan calls plan') :
    plan'.phases.map PhaseInfo.heading = plan.phases.map PhaseInfo.heading := by
  obtain ⟨phaseId, change, hkeeps, hphases⟩ := phases_of_passed h
  rw [hphases, LoopPlan.withPhase, List.map_map]
  refine List.map_congr_left fun p _ => ?_
  rw [Function.comp_apply]
  split
  · exact Prod.ext (hkeeps p).1 (hkeeps p).2
  · rfl

theorem ids_of_headings {phases phases' : List PhaseInfo}
    (h : phases'.map PhaseInfo.heading = phases.map PhaseInfo.heading) :
    phases'.map PhaseInfo.id = phases.map PhaseInfo.id := by
  have hids := congrArg (List.map Prod.fst) h
  rw [List.map_map, List.map_map] at hids
  exact hids

theorem headed_of_passed (hheaded : Headed plan) (h : Passed plan calls plan') : Headed plan' := by
  have hids := ids_of_headings (headings_of_passed h)
  intro i hi id hid
  rw [hids]
  obtain hsame | ⟨phase, note, hphase, rfl⟩ := fixed_of_passed h
  · have hmem : i.fixed ∈ plan.items.map TaskItem.fixed := hsame ▸ List.mem_map_of_mem hi
    obtain ⟨i', hi', heq⟩ := List.mem_map.mp hmem
    have hphase : i'.fixed.phase = i.fixed.phase := congrArg TaskItem.phase heq
    exact hheaded i' hi' id (hphase.trans hid)
  · obtain rfl | hi := mem_insertAfterPhase.mp hi
    · cases hid
      exact List.mem_map_of_mem hphase
    · exact hheaded i hi id hid

end Haruspex.CodingLoop
