import Haruspex.Tasks.Registry

/-! Memory and database agree once every write is made, as long as conflicting writes keep their order:
the rows the pending writes lead to are always those of the tasks there are. -/
namespace Haruspex.Tasks
open WriteBehind
set_option autoImplicit false

variable {F J : Type}

/-! ## Writes -/

theorem put_save (row : Row J) (rows : Table J) (id : String) :
    (Write.save row).put rows id = if id = row.id then some row else rows id := rfl

theorem put_delete (owner : String) (rows : Table J) (id : String) :
    (Write.delete owner).put rows id = (rows id).filter (fun row => row.owner ≠ owner) := rfl

theorem commutes_of_apart {w w' : Write J} (h : w.conflicts w' = false) :
    Commutes Write.put w w' := by
  intro rows
  funext id
  cases w with
  | save row =>
    cases w' with
    | save row' =>
      have hne : row.id ≠ row'.id := by simpa [Write.conflicts] using h
      simp only [put_save]
      by_cases hrow : id = row.id
      · simp [hrow, hne]
      · simp [hrow]
    | delete owner =>
      have hne : row.owner ≠ owner := by simpa [Write.conflicts] using h
      simp only [put_save, put_delete]
      by_cases hrow : id = row.id
      · simp [hrow, Option.filter_some, hne]
      · simp [hrow]
  | delete owner =>
    cases w' with
    | save row =>
      have hne : row.owner ≠ owner := by simpa [Write.conflicts] using h
      simp only [put_save, put_delete]
      by_cases hrow : id = row.id
      · simp [hrow, Option.filter_some, hne]
      · simp [hrow]
    | delete owner' =>
      simp only [put_delete, Option.filter_filter]
      congr 1
      funext row
      exact Bool.and_comm _ _

/-- Tasks saved one after the other, where all that have this id make the same row. -/
theorem drain_saves {tasks : List (BackgroundTask F J)} {table : Table J} {id : String}
    {row : Option (Row J)} (hsame : ∀ t ∈ tasks, t.id = id → some (rowOf t) = row)
    (hthere : (∃ t ∈ tasks, t.id = id) ∨ table id = row) :
    drain Write.put (tasks.map (fun t => .save (rowOf t))) table id = row := by
  induction tasks generalizing table with
  | nil => exact hthere.resolve_left (by simp)
  | cons t tasks ih =>
    refine ih (fun t' ht' => hsame t' (List.mem_cons_of_mem t ht')) ?_
    show _ ∨ (Write.save (rowOf t)).put table id = row
    by_cases hid : id = t.id
    · right
      rw [put_save, rowOf_id, if_pos hid]
      exact hsame t List.mem_cons_self hid.symm
    · rcases hthere with ⟨t', ht', hid'⟩ | htable
      · rcases List.mem_cons.mp ht' with rfl | hrest
        · exact absurd hid'.symm hid
        · exact Or.inl ⟨t', hrest, hid'⟩
      · right
        rw [put_save, rowOf_id, if_neg hid]
        exact htable

theorem due_concat (writing : List (List (Write J))) (writes : List (Write J)) :
    due (writing ++ [writes]) = due writing ++ writes := by
  simp [due]

/-! ## The rows there should be -/

namespace State

/-- The rows of the tasks there are, those that are half made among them. -/
def expected (s : State F J) : Table J :=
  fun id => ((s.mem.get id).or (s.creating.get id)).map (fun e => rowOf e.task)

theorem expected_apply (s : State F J) (id : String) :
    s.expected id = ((s.mem.get id).or (s.creating.get id)).map (fun e => rowOf e.task) := rfl

structure Sound (s : State F J) : Prop where
  nodup : s.mem.ids.Nodup
  apart : ∀ id, s.mem.get id = none ∨ s.creating.get id = none
  known : ∀ id, id ∉ s.ids → s.mem.get id = none ∧ s.creating.get id = none
  knownWrites : ∀ row, Write.save row ∈ due s.writing → row.id ∈ s.ids
  drained : drain Write.put (due s.writing) s.rows = s.expected

variable {s : State F J}

/-- Memory and database agree. -/
def Agree (s : State F J) : Prop := ∀ id, s.rows id = (s.mem.get id).map (fun e => rowOf e.task)

theorem Sound.agree (h : s.Sound) (hquiet : s.Quiet) : s.Agree := by
  intro id
  have hrows := congrFun h.drained id
  rw [hquiet.2, expected_apply, hquiet.1] at hrows
  show s.rows id = _
  rw [show s.rows id = _ from hrows]
  show ((s.mem.get id).or none).map _ = _
  rw [Option.or_none]

/-! ## Each step -/

/-- A new task whose row is written first. -/
theorem Sound.halfMade (h : s.Sound) {task : BackgroundTask F J} (hnew : task.id ∉ s.ids)
    (horder : Write.delete task.owner ∉ due s.writing) :
    Sound { s with
      rows := (Write.save (rowOf task)).put s.rows
      ids := task.id :: s.ids
      creating := insertTask s.creating task } := by
  obtain ⟨hmem, hcreating⟩ := h.known _ hnew
  refine ⟨h.nodup, fun id => ?_, fun id hid => ?_, fun row hrow => ?_, ?_⟩
  · by_cases hid : id = task.id
    · exact Or.inl (by rw [hid]; exact hmem)
    · exact (h.apart id).imp_right (get_insert_other hid).trans
  · obtain ⟨hne, hold⟩ := not_or.mp (List.mem_cons.not.mp hid)
    exact (h.known id hold).imp_right (get_insert_other hne).trans
  · exact List.mem_cons_of_mem _ (h.knownWrites row hrow)
  · -- The write is made ahead of all that are due: none is of this id, none of this owner.
    have hcommute : ∀ w ∈ due s.writing, Commutes Write.put (.save (rowOf task)) w := by
      intro w hw
      refine commutes_of_apart ?_
      cases w with
      | save row =>
        have hne : task.id ≠ row.id := by
          intro hsame
          rw [hsame] at hnew
          exact hnew (h.knownWrites row hw)
        exact decide_eq_false hne
      | delete owner =>
        have hne : task.owner ≠ owner := by
          rintro rfl
          exact horder hw
        exact decide_eq_false hne
    show drain Write.put (due s.writing) ((Write.save (rowOf task)).put s.rows) = _
    rw [drain_put hcommute, h.drained]
    funext id
    rw [put_save, rowOf_id, expected_apply, expected_apply]
    by_cases hid : id = task.id
    · rw [if_pos hid, hid, get_insert_self, hmem]
      rfl
    · rw [if_neg hid, get_insert_other hid]

/-- A step in memory that changes no row. -/
theorem Sound.same_rows (h : s.Sound) {mem : Entries F J} (hnodup : mem.ids.Nodup)
    (hsame : ∀ id, (mem.get id).map (fun e => rowOf e.task) =
      (s.mem.get id).map (fun e => rowOf e.task)) : Sound { s with mem := mem } := by
  have hnone (id : String) (hid : s.mem.get id = none) : mem.get id = none := by
    have hrow := hsame id
    rw [hid, Option.map_none, Option.map_eq_none_iff] at hrow
    exact hrow
  refine ⟨hnodup, fun id => (h.apart id).imp_left (hnone id),
    fun id hid => (h.known id hid).imp_left (hnone id), h.knownWrites, h.drained.trans ?_⟩
  funext id
  rw [expected_apply, expected_apply, Option.map_or, Option.map_or]
  show _ = ((mem.get id).map _).or _
  rw [hsame id]

/-- A step in memory that writes behind it what the rows are to show. -/
theorem Sound.write_behind (h : s.Sound) {mem : Entries F J} {writes : List (Write J)}
    (hnodup : mem.ids.Nodup) (hnone : ∀ id, s.mem.get id = none → mem.get id = none)
    (hknown : ∀ row, Write.save row ∈ writes → row.id ∈ s.ids)
    (hrows : ∀ id, drain Write.put writes s.expected id =
      ((mem.get id).or (s.creating.get id)).map (fun e => rowOf e.task)) :
    Sound { s with mem := mem, writing := s.writing ++ [writes] } := by
  refine ⟨hnodup, fun id => (h.apart id).imp_left (hnone id),
    fun id hid => (h.known id hid).imp_left (hnone id), fun row hrow => ?_, ?_⟩
  · rw [due_concat, List.mem_append] at hrow
    exact hrow.elim (h.knownWrites row) (hknown row)
  · show drain Write.put (due (s.writing ++ [writes])) s.rows = _
    rw [due_concat, drain_append, h.drained]
    funext id
    exact hrows id

theorem Sound.mem_ids (h : s.Sound) {id : String} {e : Entry F J} (he : s.mem.get id = some e) :
    id ∈ s.ids := by
  by_contra hid
  rw [(h.known id hid).1] at he
  cases he

section

variable [OfNat F 100]

theorem Sound.createInsert (h : s.Sound) (id : String) :
    ((Action.createInsert id).apply s).Sound := by
  simp only [Action.apply]
  cases hfound : s.creating.get id with
  | none => exact h
  | some e =>
    have hid := get_id hfound
    have hmem : s.mem.get id = none := (h.apart id).resolve_right (by simp [hfound])
    have hinsert : (insertTask s.mem e.task).get id = some ⟨e.task, false, none⟩ := by
      rw [← hid]
      exact get_insert_self s.mem e.task
    refine ⟨nodup_insert h.nodup e.task, fun other => ?_, fun other hother => ?_, h.knownWrites,
      h.drained.trans ?_⟩
    · by_cases hne : other = id
      · exact Or.inr (by rw [hne]; exact get_without_self s.creating id)
      · rw [get_insert_other (by rw [hid]; exact hne), get_without_other hne]
        exact h.apart other
    · have hne : other ≠ id := by
        rintro rfl
        rw [(h.known other hother).2] at hfound
        cases hfound
      rw [get_insert_other (by rw [hid]; exact hne), get_without_other hne]
      exact h.known other hother
    · funext other
      rw [expected_apply, expected_apply]
      dsimp only
      by_cases hne : other = id
      · rw [hne, hmem, hfound, hinsert]
        rfl
      · rw [get_insert_other (by rw [hid]; exact hne), get_without_other hne]

theorem Sound.takeNotices (h : s.Sound) (owner : String) :
    ((Action.takeNotices owner : Action F J).apply s).Sound := by
  have hids : (Tasks.takeNotices s.mem owner).2.ids = s.mem.ids := ids_map (hear_id owner) s.mem
  refine h.write_behind (by rw [hids]; exact h.nodup) (fun id hid => ?_) (fun row hrow => ?_)
    (fun id => ?_)
  · rw [get_takeNotices, hid]
    rfl
  · obtain ⟨t, ht, hsave⟩ := List.mem_map.mp hrow
    obtain ⟨e, he, -, rfl⟩ := mem_takeNotices.mp ht
    obtain rfl : rowOf (e.hear owner).task = row := Write.save.inj hsave
    rw [rowOf_id, hear_id]
    exact h.mem_ids (get_of_mem h.nodup he)
  · rw [get_takeNotices]
    -- The tasks taken are those that change, each in its own way: no two have one id.
    refine drain_saves (fun t ht hid => ?_) ?_
    · obtain ⟨e, he, -, rfl⟩ := mem_takeNotices.mp ht
      have hfound := get_of_mem h.nodup he
      rw [hear_id] at hid
      rw [hid] at hfound
      rw [hfound]
      rfl
    · cases hfound : s.mem.get id with
      | none =>
        right
        rw [expected_apply, hfound]
        rfl
      | some e =>
        cases hnotice : hasNotice owner e.task with
        | true =>
          left
          refine ⟨_, mem_takeNotices.mpr ⟨e, get_mem hfound, hnotice, rfl⟩, ?_⟩
          rw [hear_id, get_id hfound]
        | false =>
          right
          rw [expected_apply, hfound, Option.map_some, hear_of_none hnotice]

theorem Sound.update (h : s.Sound) (id : String) (patch : TaskPatch F J) (nowMs instant : ℕ) :
    ((Action.update id patch nowMs instant).apply s).Sound := by
  simp only [Action.apply]
  cases hfound : s.mem.get id with
  | none =>
    rw [update_of_none patch nowMs instant hfound]
    simpa [toSave] using h
  | some e =>
    by_cases hlet : e.task.state.ended = false ∨ patch.progressOnly = true
    · obtain ⟨entry, send, hentry, hput⟩ := update_applies nowMs instant hfound hlet
      have hid : entry.task.id = id := by
        rw [hentry, TaskPatch.apply_id, get_id hfound]
      have hself := get_put_self hid hfound
      have hnodup : (s.mem.put id entry).ids.Nodup := by
        rw [ids_put hid]
        exact h.nodup
      rw [hput]
      cases hprogress : patch.progressOnly with
      | true =>
        simp only [toSave, Bool.not_true, Bool.false_eq_true, if_false, List.append_nil]
        refine h.same_rows hnodup (fun other => ?_)
        by_cases hne : other = id
        · rw [hne, hself, hfound, Option.map_some, Option.map_some, hentry,
            TaskPatch.apply_progress hprogress]
          rfl
        · rw [get_put_other hid hne]
      | false =>
        simp only [toSave, Bool.not_false, if_true, ← hentry]
        refine h.write_behind hnodup (fun other hother => ?_) (fun row hrow => ?_) (fun other => ?_)
        · have hne : other ≠ id := by
            rintro rfl
            rw [hfound] at hother
            cases hother
          rw [get_put_other hid hne, hother]
        · obtain rfl := Write.save.inj (List.mem_singleton.mp hrow)
          rw [rowOf_id, hid]
          exact h.mem_ids hfound
        · show (Write.save (rowOf entry.task)).put s.expected other = _
          rw [put_save, rowOf_id, hid, expected_apply]
          by_cases hne : other = id
          · rw [if_pos hne, hne, hself]
            rfl
          · rw [if_neg hne, get_put_other hid hne]
    · rw [not_or, Bool.not_eq_false, Bool.not_eq_true] at hlet
      rw [update_late nowMs instant hfound hlet.1 hlet.2]
      simpa [toSave] using h

theorem Sound.cancel (h : s.Sound) (id : String) (heard : Bool) :
    ((Action.cancel id heard : Action F J).apply s).Sound := by
  simp only [Action.apply]
  rcases cancel_cases s.mem id heard with hsame | ⟨e, entry, he, htask, hput⟩
  · rw [hsame]
    exact h
  · have hid : entry.task.id = id := by rw [htask, get_id he]
    rw [hput]
    refine h.same_rows (by rw [ids_put hid]; exact h.nodup) (fun other => ?_)
    by_cases hne : other = id
    · rw [hne, get_put_self hid he, he, Option.map_some, Option.map_some, htask]
    · rw [get_put_other hid hne]

theorem Sound.removeOwner (h : s.Sound) {owner : String} (horder : InOrder s (.removeOwner owner)) :
    ((Action.removeOwner owner : Action F J).apply s).Sound := by
  have hget := get_removeOwner_eq h.nodup owner
  refine h.write_behind (nodup_filter h.nodup _) (fun id hid => ?_) (fun row hrow => ?_)
    (fun id => ?_)
  · rw [hget, hid]
    rfl
  · cases List.mem_singleton.mp hrow
  · show (Write.delete owner).put s.expected id = _
    rw [put_delete, expected_apply, hget, Option.filter_map]
    rcases h.apart id with hmem | hcreating
    · rw [hmem]
      cases hfound : s.creating.get id with
      | none => rfl
      | some e =>
        have hne := horder e (get_mem hfound)
        simp [Option.filter_some, hne]
    · rw [hcreating, Option.or_none, Option.or_none]
      rfl

theorem Sound.write (h : s.Sound) {k : ℕ} (horder : InOrder s (.write k)) :
    ((Action.write k : Action F J).apply s).Sound := by
  simp only [Action.apply]
  split
  · rename_i w rest hk
    refine ⟨h.nodup, h.apart, h.known, fun row hrow => ?_, ?_⟩
    · refine h.knownWrites row ?_
      obtain ⟨hbefore, hafter⟩ := due_set hk
      rw [hafter] at hrow
      rw [hbefore]
      simp only [List.mem_append, List.mem_cons] at hrow ⊢
      tauto
    · show drain Write.put (due (s.writing.set k rest)) (w.put s.rows) = _
      rw [drain_set hk (fun w' hw' => commutes_of_apart (horder w rest hk w' hw')), h.drained]
      rfl
  · exact h

end

end State

end Haruspex.Tasks
