import Haruspex.Library.Runs
import Haruspex.Tasks.Agree
import Mathlib.Data.List.Nodup

/-! Whole runs of the registry, from one launch to the next. -/
namespace Haruspex.Tasks
open Runs WriteBehind
set_option autoImplicit false

variable {F J : Type}

/-! ## Launch -/

theorem Saved.eq_of_id (saved : Saved J) {r r' : Row J} (hr : r ∈ saved.rows) (hr' : r' ∈ saved.rows)
    (hid : r.id = r'.id) : r = r' :=
  List.inj_on_of_nodup_map saved.nodup hr hr' hid

theorem Saved.table_of_mem (saved : Saved J) {r : Row J} (hr : r ∈ saved.rows) :
    saved.table r.id = some r := by
  cases hfound : saved.table r.id with
  | none =>
    have hno := List.find?_eq_none.mp hfound r hr
    simp at hno
  | some r' =>
    have hid := List.find?_some hfound
    rw [saved.eq_of_id (List.mem_of_find?_eq_some hfound) hr (by simpa using hid)]

theorem opened_ids (saved : List (Row J)) (nowMs : ℕ) :
    (opened saved nowMs : Entries F J).ids =
      (saved.filter (fun r => !expired nowMs r)).map Row.id := by
  rw [opened, Entries.ids, List.map_map]
  exact List.map_congr_left (fun r _ => relaunch_id nowMs r)

theorem opened_nodup (saved : Saved J) (nowMs : ℕ) :
    (opened saved.rows nowMs : Entries F J).ids.Nodup := by
  rw [opened_ids]
  exact saved.nodup.sublist (List.filter_sublist.map _)

theorem get_opened (saved : Saved J) (nowMs : ℕ) (id : String) :
    (opened saved.rows nowMs : Entries F J).get id =
      ((saved.table id).filter (fun r => !expired nowMs r)).map
        (fun r => ⟨relaunch nowMs r, false, none⟩) := by
  cases hgot : (opened saved.rows nowMs : Entries F J).get id with
  | some e =>
    obtain ⟨r, hr, hexpired, rfl⟩ := mem_opened.mp (get_mem hgot)
    have hid := get_id hgot
    rw [relaunch_id] at hid
    rw [← hid, saved.table_of_mem hr, Option.filter_some, if_pos (by rw [hexpired]; rfl)]
    rfl
  | none =>
    symm
    rw [Option.map_eq_none_iff, Option.filter_eq_none_iff]
    intro r hfound hexpired
    have hr : r ∈ saved.rows := List.mem_of_find?_eq_some hfound
    have hid : r.id = id := by simpa using List.find?_some hfound
    have hthere := get_of_mem (opened_nodup (F := F) saved nowMs)
      (mem_opened.mpr ⟨r, hr, by simpa using hexpired, rfl⟩)
    rw [show (relaunch nowMs r : BackgroundTask F J).id = id from (relaunch_id nowMs r).trans hid,
      hgot] at hthere
    cases hthere

theorem rowOf_relaunch {nowMs : ℕ} {r : Row J} (h : died r = false) :
    rowOf (relaunch nowMs r : BackgroundTask F J) = r := by
  rw [relaunch, h]
  rfl

theorem launchRow_other {nowMs : ℕ} {r : Row J} {id : String} (hne : id ≠ r.id) (table : Table J) :
    launchRow F nowMs table r id = table id := by
  unfold launchRow
  split
  · exact if_neg hne
  · split
    · rw [put_save, rowOf_id, relaunch_id, if_neg hne]
    · rfl

theorem launchRow_self {nowMs : ℕ} {r : Row J} {table : Table J} (h : table r.id = some r) :
    launchRow F nowMs table r r.id =
      if expired nowMs r then none else some (rowOf (relaunch nowMs r : BackgroundTask F J)) := by
  unfold launchRow
  split
  · exact if_pos rfl
  · cases hdied : died r with
    | true => rw [if_pos rfl, put_save, rowOf_id, relaunch_id, if_pos rfl]
    | false => rw [if_neg (by decide), h, rowOf_relaunch hdied]

/-- A launch changes the row of each task by itself. -/
theorem foldl_launchRow (nowMs : ℕ) {rows : List (Row J)} (hnodup : (rows.map Row.id).Nodup)
    {table : Table J} (htable : ∀ r ∈ rows, table r.id = some r) (id : String) :
    (∀ r ∈ rows, r.id = id → rows.foldl (launchRow F nowMs) table id =
      if expired nowMs r then none else some (rowOf (relaunch nowMs r : BackgroundTask F J))) ∧
    ((∀ r ∈ rows, r.id ≠ id) → rows.foldl (launchRow F nowMs) table id = table id) := by
  induction rows generalizing table with
  | nil => exact ⟨List.forall_mem_nil _, fun _ => rfl⟩
  | cons first rows ih =>
    obtain ⟨hfirst, hrows⟩ := List.nodup_cons.mp hnodup
    have hapart (r : Row J) (hr : r ∈ rows) : r.id ≠ first.id := by
      intro hsame
      exact hfirst (List.mem_map.mpr ⟨r, hr, hsame⟩)
    have hrest : ∀ r ∈ rows, launchRow F nowMs table first r.id = some r := by
      intro r hr
      rw [launchRow_other (hapart r hr)]
      exact htable r (List.mem_cons_of_mem first hr)
    obtain ⟨ihthere, ihnone⟩ := ih hrows hrest
    refine ⟨fun r hr hid => ?_, fun hnone => ?_⟩
    · rcases List.mem_cons.mp hr with rfl | hmem
      · rw [List.foldl_cons, ihnone (fun r' hr' => by rw [← hid]; exact hapart r' hr'), ← hid]
        exact launchRow_self (htable r List.mem_cons_self)
      · exact ihthere r hmem hid
    · rw [List.foldl_cons, ihnone (fun r hr => hnone r (List.mem_cons_of_mem first hr))]
      exact launchRow_other (hnone first List.mem_cons_self).symm table

theorem launch_agree (saved : Saved J) (nowMs : ℕ) : (launch saved nowMs : State F J).Agree := by
  intro id
  obtain ⟨hthere, hnone⟩ := foldl_launchRow (F := F) nowMs saved.nodup
    (fun r hr => saved.table_of_mem hr) id
  show saved.rows.foldl (launchRow F nowMs) saved.table id =
    ((opened saved.rows nowMs : Entries F J).get id).map _
  rw [get_opened]
  cases hfound : saved.table id with
  | none =>
    rw [hnone, hfound]
    · rfl
    · intro r hr hid
      rw [← hid, saved.table_of_mem hr] at hfound
      cases hfound
  | some r =>
    have hid : r.id = id := by simpa using List.find?_some hfound
    rw [hthere r (List.mem_of_find?_eq_some hfound) hid, Option.filter_some]
    cases expired nowMs r with
    | true => rfl
    | false => rfl

theorem launch_sound (saved : Saved J) (nowMs : ℕ) : (launch saved nowMs : State F J).Sound := by
  refine ⟨opened_nodup saved nowMs, fun id => Or.inr rfl, fun id hid => ⟨?_, rfl⟩, fun row hrow => (List.not_mem_nil hrow).elim, ?_⟩
  · show (opened saved.rows nowMs : Entries F J).get id = none
    rw [get_opened, Option.map_eq_none_iff, Option.filter_eq_none_iff]
    intro r hfound _
    have hsame : r.id = id := by simpa using List.find?_some hfound
    exact hid (List.mem_map.mpr ⟨r, List.mem_of_find?_eq_some hfound, hsame⟩)
  · funext id
    rw [State.expected_apply]
    show (launch saved nowMs : State F J).rows id = ((State.mem _).get id |>.or none).map _
    rw [Option.or_none]
    exact launch_agree saved nowMs id

/-! ## One task -/

section

variable [OfNat F 100] {s : State F J}

/-- What no operation takes from a task. -/
structure Lasting (P : BackgroundTask F J → Prop) : Prop where
  hear : ∀ owner (e : Entry F J), P e.task → P (e.hear owner).task
  apply : ∀ (patch : TaskPatch F J) t nowMs, t.state.ended = false ∨ patch.progressOnly = true →
    P t → P (patch.apply t nowMs)

/-- The task of this id, if it is still there, has the property. -/
structure Settled (P : BackgroundTask F J → Prop) (id : String) (s : State F J) : Prop where
  known : id ∈ s.ids
  made : s.creating.get id = none
  holds : ∀ e, s.mem.get id = some e → P e.task

theorem Settled.step {P : BackgroundTask F J → Prop} (hP : Lasting P) {id : String}
    (hsound : s.Sound) (h : Settled P id s) {action : Action F J} (hnew : NewId s action) :
    Settled P id (action.apply s) := by
  cases action with
  | createSave kind owner label follower spec uuid nowMs =>
    have hne : id ≠ (newTask kind owner label follower spec uuid nowMs : BackgroundTask F J).id := by
      rintro rfl
      exact hnew h.known
    exact ⟨List.mem_cons_of_mem _ h.known, (get_insert_other hne).trans h.made, h.holds⟩
  | createInsert other =>
    simp only [Action.apply]
    cases hfound : s.creating.get other with
    | none => exact h
    | some e =>
      have hne : id ≠ other := by
        rintro rfl
        rw [h.made] at hfound
        cases hfound
      refine ⟨h.known, (get_without_other hne s.creating).trans h.made, fun e' he' => ?_⟩
      rw [get_insert_other (by rw [get_id hfound]; exact hne)] at he'
      exact h.holds e' he'
  | update other patch nowMs instant =>
    refine ⟨h.known, h.made, fun e' he' => ?_⟩
    simp only [Action.apply] at he'
    cases hfound : s.mem.get other with
    | none =>
      rw [update_of_none patch nowMs instant hfound] at he'
      exact h.holds e' he'
    | some e =>
      by_cases hlet : e.task.state.ended = false ∨ patch.progressOnly = true
      · obtain ⟨entry, send, hentry, hput⟩ := update_applies nowMs instant hfound hlet
        have hid : entry.task.id = other := by rw [hentry, TaskPatch.apply_id, get_id hfound]
        rw [hput] at he'
        by_cases hne : id = other
        · rw [hne, get_put_self hid hfound, Option.some_inj] at he'
          rw [← he', hentry]
          exact hP.apply patch e.task nowMs hlet (h.holds e (by rw [hne]; exact hfound))
        · rw [get_put_other hid hne] at he'
          exact h.holds e' he'
      · rw [not_or, Bool.not_eq_false, Bool.not_eq_true] at hlet
        rw [update_late nowMs instant hfound hlet.1 hlet.2] at he'
        exact h.holds e' he'
  | cancel other heard =>
    refine ⟨h.known, h.made, fun e' he' => ?_⟩
    simp only [Action.apply] at he'
    rcases cancel_cases s.mem other heard with hsame | ⟨e, entry, he, htask, hput⟩
    · rw [hsame] at he'
      exact h.holds e' he'
    · have hid : entry.task.id = other := by rw [htask, get_id he]
      rw [hput] at he'
      by_cases hne : id = other
      · rw [hne, get_put_self hid he, Option.some_inj] at he'
        rw [← he', htask]
        exact h.holds e (by rw [hne]; exact he)
      · rw [get_put_other hid hne] at he'
        exact h.holds e' he'
  | takeNotices owner =>
    refine ⟨h.known, h.made, fun e' he' => ?_⟩
    simp only [Action.apply, get_takeNotices, Option.map_eq_some_iff] at he'
    obtain ⟨e, he, rfl⟩ := he'
    exact hP.hear owner e (h.holds e he)
  | removeOwner owner =>
    refine ⟨h.known, h.made, fun e' he' => ?_⟩
    simp only [Action.apply, get_removeOwner_eq hsound.nodup] at he'
    exact h.holds e' (Option.eq_some_of_filter_eq_some he')
  | write k =>
    simp only [Action.apply]
    split
    · exact ⟨h.known, h.made, h.holds⟩
    · exact h

/-- Its owner has heard how it ended. -/
def Heard (t : BackgroundTask F J) : Prop := t.state.ended = true ∧ t.noticeDelivered = true

theorem heard_lasting : Lasting (Heard : BackgroundTask F J → Prop) := by
  refine ⟨fun owner e h => ?_, fun patch t nowMs hlet h => ?_⟩
  · unfold Entry.hear
    split
    · exact ⟨h.1, rfl⟩
    · exact h
  · have hprogress := hlet.resolve_left (by rw [h.1]; decide)
    rw [TaskPatch.apply_progress hprogress]
    exact h

theorem gone_lasting : Lasting (fun _ : BackgroundTask F J => False) :=
  ⟨fun _ _ h => h, fun _ _ _ _ h => h⟩

theorem State.Sound.step (h : s.Sound) {action : Action F J} (hnew : NewId s action)
    (horder : InOrder s action) : (action.apply s).Sound := by
  cases action with
  | createSave kind owner label follower spec uuid nowMs => exact h.halfMade hnew horder
  | createInsert id => exact h.createInsert id
  | update id patch nowMs instant => exact h.update id patch nowMs instant
  | cancel id heard => exact h.cancel id heard
  | takeNotices owner => exact h.takeNotices owner
  | removeOwner owner => exact h.removeOwner horder
  | write k => exact h.write horder

end

/-! ## After the next launch -/

/-- A launch over these rows has a notice of this task for some owner. -/
def Offers (F : Type) (rows : Table J) (id : String) : Prop :=
  ∃ (saved : Saved J) (nowMs : ℕ) (owner : String), saved.table = rows ∧
    ∃ t ∈ (takeNotices (opened saved.rows nowMs : Entries F J) owner).1, t.id = id

/-- A launch over these rows has this task. -/
def ComesBack (F : Type) (rows : Table J) (id : String) : Prop :=
  ∃ (saved : Saved J) (nowMs : ℕ), saved.table = rows ∧
    ∃ e ∈ (opened saved.rows nowMs : Entries F J), e.task.id = id

section

variable {s : State F J} {id : String}

/-- Where memory and database agree, what a launch opens is what memory has. -/
theorem State.Agree.of_comesBack (h : s.Agree) {saved : Saved J} {nowMs : ℕ}
    (hsaved : saved.table = s.rows) {e : Entry F J} (he : e ∈ opened saved.rows nowMs) :
    ∃ e', s.mem.get e.task.id = some e' ∧ e.task = relaunch nowMs (rowOf e'.task) := by
  obtain ⟨r, hr, -, rfl⟩ := mem_opened.mp he
  have hrow := h r.id
  rw [← hsaved, saved.table_of_mem hr] at hrow
  obtain ⟨e', he', hrow'⟩ := Option.map_eq_some_iff.mp hrow.symm
  exact ⟨e', by rw [relaunch_id]; exact he', by rw [hrow']⟩

theorem not_comesBack (h : s.Agree) (hgone : s.mem.get id = none) : ¬ ComesBack F s.rows id := by
  rintro ⟨saved, nowMs, hsaved, e, he, rfl⟩
  obtain ⟨e', he', -⟩ := h.of_comesBack hsaved he
  rw [hgone] at he'
  cases he'

theorem not_offers (h : s.Agree) (hheard : ∀ e, s.mem.get id = some e → Heard e.task) :
    ¬ Offers F s.rows id := by
  rintro ⟨saved, nowMs, owner, hsaved, t, ht, rfl⟩
  obtain ⟨e, he, hnotice, rfl⟩ := mem_takeNotices.mp ht
  rw [hear_id] at hheard
  obtain ⟨e', he', htask⟩ := h.of_comesBack hsaved he
  obtain ⟨hended, hdelivered⟩ := hheard e' he'
  have hdied : died (rowOf e'.task) = false := by
    simp [died, rowOf, hended]
  rw [htask, relaunch, hdied] at hnotice
  simp [hasNotice, loadTask, rowOf, hdelivered] at hnotice

end

/-! ## Runs -/

section

variable [OfNat F 100] {saved : Saved J} {nowMs : ℕ} {actions : List (Action F J)}

theorem run_sound (hnew : EveryStep Action.apply (launch saved nowMs) actions NewId)
    (horder : EveryStep Action.apply (launch saved nowMs) actions InOrder) :
    (run Action.apply (launch saved nowMs) actions).Sound :=
  run_keeps State.Sound (fun _ _ h hstep => h.step hstep.1 hstep.2) (launch_sound saved nowMs)
    (hnew.and horder)

/-- What a step settles about a task is so to the end of the run. -/
theorem settled_to_end {P : BackgroundTask F J → Prop} (hP : Lasting P) {id : String}
    {before after : List (Action F J)} {action : Action F J}
    (hnew : EveryStep Action.apply (launch saved nowMs) (before ++ action :: after) NewId)
    (horder : EveryStep Action.apply (launch saved nowMs) (before ++ action :: after) InOrder)
    (h : (run Action.apply (launch saved nowMs) before).Sound →
      Settled P id (action.apply (run Action.apply (launch saved nowMs) before))) :
    Settled P id (run Action.apply (launch saved nowMs) (before ++ action :: after)) := by
  obtain ⟨hbefore, hrest⟩ := everyStep_append.mp (hnew.and horder)
  obtain ⟨hstep, hafter⟩ := everyStep_cons.mp hrest
  have hsound : (run Action.apply (launch saved nowMs) before).Sound :=
    run_keeps State.Sound (fun _ _ h hstep => h.step hstep.1 hstep.2) (launch_sound saved nowMs)
      hbefore
  rw [run_append, run_cons]
  exact (run_keeps (fun s => s.Sound ∧ Settled P id s)
    (fun _ _ h hstep => ⟨h.1.step hstep.1 hstep.2, h.2.step hP h.1 hstep.1⟩)
    ⟨hsound.step hstep.1 hstep.2, h hsound⟩ hafter).2

theorem takeNotices_settles {s : State F J} (h : s.Sound) {owner : String} {t : BackgroundTask F J}
    (ht : t ∈ (Tasks.takeNotices s.mem owner).1) :
    Settled Heard t.id ((Action.takeNotices owner : Action F J).apply s) := by
  obtain ⟨e, he, hnotice, rfl⟩ := mem_takeNotices.mp ht
  have hfound := get_of_mem h.nodup he
  rw [hear_id]
  refine ⟨h.mem_ids hfound, (h.apart _).resolve_left (by simp [hfound]), fun e' he' => ?_⟩
  simp only [Action.apply, get_takeNotices, hfound, Option.map_some, Option.some_inj] at he'
  rw [← he', Entry.hear, if_pos hnotice]
  simp only [hasNotice, Bool.and_eq_true] at hnotice
  exact ⟨hnotice.1.2, rfl⟩

theorem removeOwner_settles {s : State F J} (h : s.Sound) {e : Entry F J} (he : e ∈ s.mem) :
    Settled (fun _ : BackgroundTask F J => False) e.task.id
      ((Action.removeOwner e.task.owner : Action F J).apply s) := by
  have hfound := get_of_mem h.nodup he
  refine ⟨h.mem_ids hfound, (h.apart _).resolve_left (by simp [hfound]), fun e' he' => ?_⟩
  simp [Action.apply, get_removeOwner_eq h.nodup, hfound, Option.filter_some] at he'

/-- In every run where conflicting writes keep their order, memory and database agree once nothing is
under way; a notice that was taken is not offered after the next launch, and no task of an owner that
went comes back. -/
theorem registry_agrees_in_order (saved : Saved J) (nowMs : ℕ) (actions : List (Action F J))
    (hnew : EveryStep Action.apply (launch saved nowMs) actions NewId)
    (horder : EveryStep Action.apply (launch saved nowMs) actions InOrder)
    (hquiet : (run Action.apply (launch saved nowMs) actions).Quiet) :
    (run Action.apply (launch saved nowMs) actions).Agree ∧
    (∀ before owner after, actions = before ++ .takeNotices owner :: after →
      ∀ t ∈ (takeNotices (run Action.apply (launch saved nowMs) before).mem owner).1,
        ¬ Offers F (run Action.apply (launch saved nowMs) actions).rows t.id) ∧
    ∀ before owner after, actions = before ++ .removeOwner owner :: after →
      ∀ e ∈ (run Action.apply (launch saved nowMs) before).mem, e.task.owner = owner →
        ¬ ComesBack F (run Action.apply (launch saved nowMs) actions).rows e.task.id := by
  have hagree := (run_sound hnew horder).agree hquiet
  refine ⟨hagree, ?_, ?_⟩
  · rintro before owner after rfl t ht
    have hheard := settled_to_end heard_lasting hnew horder (fun h => takeNotices_settles h ht)
    exact not_offers hagree hheard.holds
  · rintro before owner after rfl e he rfl
    have hgone := settled_to_end gone_lasting hnew horder (fun h => removeOwner_settles h he)
    exact not_comesBack hagree (Option.eq_none_iff_forall_ne_some.mpr hgone.holds)

/-! A song is done, and its owner takes the notice. -/

def songDone : List (Action ℕ Unit) :=
  [.createSave .music "chat:a" "Song" .frontend () "1" 10, .createInsert "music-1",
    .update "music-1" ⟨some .done, none, none, none, none, none, some (), none, none⟩ 20 20,
    .takeNotices "chat:a"]

def empty : State ℕ Unit := launch ⟨[], List.nodup_nil⟩ 0

theorem registry_agrees_in_order_song :
    (run Action.apply empty (songDone ++ [.write 0, .write 1])).Agree := by
  refine (registry_agrees_in_order ⟨[], List.nodup_nil⟩ 0 (songDone ++ [.write 0, .write 1]) ?_ ?_
    ⟨rfl, rfl⟩).1
  · refine everyStep_cons.mpr ⟨by simp [NewId, launch], ?_⟩
    iterate 5 refine everyStep_cons.mpr ⟨trivial, ?_⟩
    exact everyStep_nil _ _
  · refine everyStep_cons.mpr ⟨by simp [InOrder, launch, due], ?_⟩
    iterate 3 refine everyStep_cons.mpr ⟨trivial, ?_⟩
    refine everyStep_cons.mpr ⟨fun _ _ _ w hw => absurd hw List.not_mem_nil, ?_⟩
    refine everyStep_cons.mpr ⟨fun _ _ _ w hw => ?_, everyStep_nil _ _⟩
    have hempty : due (List.take 1 (run Action.apply empty (songDone ++ [.write 0])).writing) = [] :=
      List.isEmpty_iff.mp (by decide +kernel)
    change w ∈ due (List.take 1 (run Action.apply empty (songDone ++ [.write 0])).writing) at hw
    rw [hempty] at hw
    cases hw

/-- The row the update leaves is the one from before the notice was taken. -/
theorem stale_row_wins : (run Action.apply empty (songDone ++ [.write 1, .write 0])).Quiet ∧
    ¬ (run Action.apply empty (songDone ++ [.write 1, .write 0])).Agree := by
  refine ⟨⟨rfl, rfl⟩, fun h => ?_⟩
  have hrow := congrArg (Option.map Row.noticeDelivered) (h "music-1")
  exact absurd hrow (by decide +kernel)

end

end Haruspex.Tasks
