import Haruspex.CodingLoop.TodoRead

/-! When the checklist file is read back as the plan it was written from. -/
namespace Haruspex.CodingLoop
open JavaScript (isBlank)
open JavaScript.Chars
set_option autoImplicit false

/-! ## What the file is to keep -/

/-- An item, its description up to blank lines and trailing blanks. -/
def recorded (item : TaskItem) : TaskItem × List Text :=
  ({ item with description := [] }, textLines item.description)

def itemsOf (plan : LoopPlan) (phase : Option Text) : List TaskItem :=
  plan.items.filter (fun item => item.phase = phase)

/-- The file is read back as the plan, and written again from that. -/
def RoundTrips (plan : LoopPlan) : Prop :=
  ∃ plan', parseTodoPlan (renderTodoPlan plan) = some plan' ∧ plan'.phases = plan.phases ∧
    (∀ phase, (itemsOf plan' phase).map recorded = (itemsOf plan phase).map recorded) ∧
    renderTodoPlan plan' = renderTodoPlan plan

/-- The file can hold all of the plan. -/
structure Plain (plan : LoopPlan) : Prop where
  nonempty : plan.items ≠ []
  headings : ∀ phase ∈ plan.phases, phase.title ≠ []
  titles : ∀ item ∈ plan.items, item.title ≠ []
  flat : ∀ item ∈ plan.items, ∀ line ∈ textLines item.description, isFlat line = true
  once : ∀ item ∈ plan.items, ∀ id ∈ item.phase, (plan.phases.map PhaseInfo.id).count id = 1

variable {plan : LoopPlan} {item : TaskItem} {phase : Option Text}

/-! ## An item -/

theorem textLines_reread (phase : Option Text) (item : TaskItem) :
    textLines (reread phase item).description = flatLines item.description :=
  textLines_intercalate fun _ hline => isTextLine_of_mem_flatLines hline

@[simp] theorem reread_phase (phase : Option Text) (item : TaskItem) : (reread phase item).phase = phase := rfl

theorem flatLines_eq_self (h : ∀ line ∈ textLines item.description, isFlat line = true) :
    flatLines item.description = textLines item.description := List.filter_eq_self.mpr h

theorem recorded_reread (htitle : item.title ≠ [])
    (hflat : ∀ line ∈ textLines item.description, isFlat line = true) (hphase : item.phase = phase) :
    recorded (reread phase item) = recorded item := by
  rw [recorded, textLines_reread, flatLines_eq_self hflat]
  simp only [reread, readItem, if_neg htitle, recorded, Prod.mk.injEq, and_true]
  rw [← hphase]

/-- An item that is read back as it was has a title and a flat description. -/
theorem eq_of_recorded_reread (h : recorded (reread phase item) = recorded item) :
    item.title ≠ [] ∧ ∀ line ∈ textLines item.description, isFlat line = true := by
  have htitles : (reread phase item).title = item.title := congrArg (fun r => r.1.title) h
  have hlines := congrArg Prod.snd h
  simp only [recorded, textLines_reread] at hlines
  constructor
  · intro hnil
    have htrim : trim (itemSuffix item.attempts item.repair) = [] := by
      simpa [reread, readItem, hnil] using htitles
    rw [trim_eq_nil_iff] at htrim
    have hparen := htrim '(' (by simp [itemSuffix])
    exact absurd hparen (by decide)
  · exact List.filter_eq_self.mp hlines

theorem itemLines_reread (htitle : item.title ≠ [])
    (hflat : ∀ line ∈ textLines item.description, isFlat line = true) :
    itemLines (reread phase item) = itemLines item := by
  rw [itemLines, textLines_reread, flatLines_eq_self hflat]
  simp only [itemLines, itemLine, reread, readItem, if_neg htitle]

/-! ## The items of a heading -/

theorem filter_map_reread (key other : Option Text) (items : List TaskItem) :
    (items.map (reread other)).filter (fun item => item.phase = key) =
      if other = key then items.map (reread other) else [] := by
  split
  · rename_i heq
    refine List.filter_eq_self.mpr fun item hitem => ?_
    obtain ⟨item', -, rfl⟩ := List.mem_map.mp hitem
    exact decide_eq_true heq
  · rename_i hne
    refine List.filter_eq_nil_iff.mpr fun item hitem => ?_
    obtain ⟨item', -, rfl⟩ := List.mem_map.mp hitem
    exact fun heq => hne (of_decide_eq_true heq)

theorem filter_flatMap_reread (key : Option Text) (phases : List PhaseInfo) :
    (phases.flatMap (fun p => (members plan p.id).map (reread (some p.id)))).filter (fun item => item.phase = key) =
      (phases.filter (fun p => some p.id = key)).flatMap (fun p =>
        (members plan p.id).map (reread (some p.id))) := by
  induction phases with
  | nil => rfl
  | cons p phases ih =>
    rw [List.flatMap_cons, List.filter_append, ih, filter_map_reread, List.filter_cons]
    by_cases hkey : some p.id = key <;> simp [hkey]

/-- What is read under no heading. -/
theorem filter_rereadItems_none :
    (rereadItems plan).filter (fun item => item.phase = none) =
      (plan.items.filter (unheaded plan)).map (reread none) := by
  rw [rereadItems, List.filter_append, filter_map_reread, filter_flatMap_reread, if_pos rfl]
  simp

theorem flatMap_const_eq_replicate (phases : List PhaseInfo) (id : Text) (items : Text → List TaskItem) :
    (phases.filter (fun p => some p.id = some id)).flatMap (fun p => items p.id) =
      (List.replicate ((phases.map PhaseInfo.id).count id) (items id)).flatten := by
  induction phases with
  | nil => rfl
  | cons p phases ih =>
    rw [List.filter_cons, List.map_cons, List.count_cons]
    by_cases hid : p.id = id
    · simp only [hid, decide_true, if_true, List.flatMap_cons, ih, beq_self_eq_true]
      rw [List.replicate_succ, List.flatten_cons]
    · simp only [Option.some.injEq, hid, decide_false, Bool.false_eq_true, if_false, beq_iff_eq, Nat.add_zero]
      simpa only [Option.some.injEq] using ih

/-- What is read under the headings of an id: the items of the id, once for each. -/
theorem filter_rereadItems_some (id : Text) :
    (rereadItems plan).filter (fun item => item.phase = some id) =
      (List.replicate ((plan.phases.map PhaseInfo.id).count id)
        ((members plan id).map (reread (some id)))).flatten := by
  rw [rereadItems, List.filter_append, filter_map_reread, filter_flatMap_reread, if_neg (by simp),
    List.nil_append]
  exact flatMap_const_eq_replicate plan.phases id fun id => (members plan id).map (reread (some id))

theorem itemsOf_some (id : Text) : itemsOf plan (some id) = members plan id := rfl

/-! ## Phases that occur once -/

/-- An item stands under no heading only if it is in no phase. -/
theorem unheaded_iff {plan' : LoopPlan} (hphases : plan'.phases = plan.phases) (h : plan.Wellformed)
    (honce : ∀ id ∈ item.phase, (plan.phases.map PhaseInfo.id).count id = 1) :
    unheaded plan' item = true ↔ item.phase = none := by
  unfold unheaded
  cases hphase : item.phase with
  | none => simp
  | some id =>
    have hcount := honce id hphase
    have hmem : id ∈ plan.phases.map PhaseInfo.id := List.count_pos_iff.mp (by omega)
    obtain ⟨p, hp, rfl⟩ := List.mem_map.mp hmem
    simp [hphases, hmem, (h.phases p hp).id.ne_nil]

/-- An item's phase occurs once among the headings. -/
def Once (plan : LoopPlan) : Prop :=
  ∀ item ∈ plan.items, ∀ id ∈ item.phase, (plan.phases.map PhaseInfo.id).count id = 1

theorem filter_unheaded (h : plan.Wellformed) (honce : Once plan) :
    plan.items.filter (unheaded plan) = itemsOf plan none := by
  refine List.filter_congr fun item hitem => ?_
  rw [Bool.eq_iff_iff, unheaded_iff rfl h (honce item hitem), decide_eq_true_eq]

/-- What is read back of each phase is what was written of it. -/
theorem filter_rereadItems (h : plan.Wellformed) (honce : Once plan) (phase : Option Text) :
    (rereadItems plan).filter (fun item => item.phase = phase) = (itemsOf plan phase).map (reread phase) := by
  cases phase with
  | none => rw [filter_rereadItems_none, filter_unheaded h honce]
  | some id =>
    rw [filter_rereadItems_some, itemsOf_some]
    by_cases hnone : members plan id = []
    · simp [hnone]
    · obtain ⟨item, hitem⟩ := List.exists_mem_of_ne_nil _ hnone
      obtain ⟨hmem, hphase⟩ := List.mem_filter.mp hitem
      rw [honce item hmem id (of_decide_eq_true hphase)]
      simp

theorem once_rereadItems (honce : Once plan) : Once ⟨plan.phases, rereadItems plan⟩ := by
  intro item hitem id hid
  obtain hmem | hmem := List.mem_append.mp hitem
  · obtain ⟨item', -, rfl⟩ := List.mem_map.mp hmem
    cases hid
  · obtain ⟨p, -, hmem⟩ := List.mem_flatMap.mp hmem
    obtain ⟨item', hitem', rfl⟩ := List.mem_map.mp hmem
    obtain ⟨hmem', hphase'⟩ := List.mem_filter.mp hitem'
    cases hid
    exact honce item' hmem' _ (of_decide_eq_true hphase')

theorem bodyLines_rereadItems (h : plan.Wellformed) (hplain : Plain plan) :
    bodyLines ⟨plan.phases, rereadItems plan⟩ = bodyLines plan := by
  have hlines : ∀ phase, ((itemsOf plan phase).map (reread phase)).flatMap itemLines =
      (itemsOf plan phase).flatMap itemLines := by
    intro phase
    rw [List.flatMap_map]
    refine List.flatMap_congr fun item hitem => ?_
    have hmem := (List.mem_filter.mp hitem).1
    exact itemLines_reread (hplain.titles item hmem) (hplain.flat item hmem)
  have hunheaded : (rereadItems plan).filter (unheaded ⟨plan.phases, rereadItems plan⟩) =
      (itemsOf plan none).map (reread none) := by
    have hphases : (⟨plan.phases, rereadItems plan⟩ : LoopPlan).phases = plan.phases := rfl
    rw [← filter_rereadItems h hplain.once]
    refine List.filter_congr fun item hitem => ?_
    rw [Bool.eq_iff_iff, unheaded_iff hphases h (once_rereadItems hplain.once item hitem), decide_eq_true_eq]
  unfold bodyLines
  dsimp only
  split
  · rename_i hnil
    have hall : rereadItems plan = (itemsOf plan none).map (reread none) := by
      rw [rereadItems, filter_unheaded h hplain.once, hnil, List.flatMap_nil, List.append_nil]
    rw [hall, hlines, ← filter_unheaded h hplain.once, filter_unheaded_of_nil hnil]
  · rw [hunheaded, hlines, filter_unheaded h hplain.once]
    congr 1
    refine List.flatMap_congr fun p _ => ?_
    have hmembers : members ⟨plan.phases, rereadItems plan⟩ p.id =
        (itemsOf plan (some p.id)).map (reread (some p.id)) := filter_rereadItems h hplain.once (some p.id)
    rw [hmembers, hlines, itemsOf_some]

theorem roundTrips_of_plain (h : plan.Wellformed) (hplain : Plain plan) : RoundTrips plan := by
  have hread : rereadItems plan ≠ [] := by
    intro hnil
    obtain ⟨item, hitem⟩ := List.exists_mem_of_ne_nil _ hplain.nonempty
    have hphase := filter_rereadItems h hplain.once item.phase
    rw [hnil, List.filter_nil] at hphase
    have hmem : item ∈ itemsOf plan item.phase := List.mem_filter.mpr ⟨hitem, by simp⟩
    rw [List.map_eq_nil_iff.mp hphase.symm] at hmem
    cases hmem
  refine ⟨⟨plan.phases, rereadItems plan⟩, ?_, rfl, fun phase => ?_, ?_⟩
  · rw [parseTodoPlan_renderTodoPlan h hplain.headings, if_neg hread]
  · rw [itemsOf, filter_rereadItems h hplain.once, List.map_map]
    refine List.map_congr_left fun item hitem => ?_
    obtain ⟨hmem, hphase⟩ := List.mem_filter.mp hitem
    exact recorded_reread (hplain.titles item hmem) (hplain.flat item hmem) (of_decide_eq_true hphase)
  · rw [renderTodoPlan, bodyLines_rereadItems h hplain, renderTodoPlan]

/-! ## The other way round -/

/-- Each phase's items come back once only if the phase occurs once. -/
theorem once_of_same
    (hitems : ∀ phase, ((rereadItems plan).filter (fun item => item.phase = phase)).map recorded =
      (itemsOf plan phase).map recorded) : Once plan := by
  intro item hitem id hid
  have hlengths := congrArg List.length (hitems (some id))
  rw [filter_rereadItems_some, itemsOf_some] at hlengths
  simp only [List.length_map, List.length_flatten, List.map_replicate, List.sum_replicate_nat] at hlengths
  have hmem : item ∈ members plan id := List.mem_filter.mpr ⟨hitem, by simpa using hid⟩
  have hpos := List.length_pos_of_mem hmem
  exact Nat.eq_of_mul_eq_mul_right hpos (by rw [hlengths, Nat.one_mul])

theorem plain_of_roundTrips (h : plan.Wellformed) (hround : RoundTrips plan) : Plain plan := by
  obtain ⟨plan', hparse, hphases, hitems, -⟩ := hround
  have hheadings : ∀ phase ∈ plan.phases, phase.title ≠ [] := by
    rw [phases_of_parseTodoPlan h hparse, List.filter_eq_self] at hphases
    exact fun phase hphase => of_decide_eq_true (hphases phase hphase)
  rw [parseTodoPlan_renderTodoPlan h hheadings] at hparse
  split at hparse
  · cases hparse
  · rename_i hread
    cases hparse
    have honce : Once plan := once_of_same hitems
    have hsame : ∀ item ∈ plan.items, recorded (reread item.phase item) = recorded item := by
      intro item hitem
      have hphase := hitems item.phase
      rw [itemsOf, filter_rereadItems h honce, List.map_map] at hphase
      exact List.map_inj_left.mp hphase item (List.mem_filter.mpr ⟨hitem, by simp⟩)
    refine ⟨?_, hheadings, fun item hitem => (eq_of_recorded_reread (hsame item hitem)).1,
      fun item hitem => (eq_of_recorded_reread (hsame item hitem)).2, honce⟩
    intro hnil
    refine hread ?_
    simp [rereadItems, members, hnil]

theorem roundTrips_iff (h : plan.Wellformed) : RoundTrips plan ↔ Plain plan :=
  ⟨plain_of_roundTrips h, roundTrips_of_plain h⟩

end Haruspex.CodingLoop
