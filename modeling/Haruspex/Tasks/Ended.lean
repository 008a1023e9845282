import Haruspex.Library.Runs
import Haruspex.Tasks.Entries
import Haruspex.Tasks.Registry

/-! An ended task. Of the operations only an update with progress alone can still change it: the guard
against late writes lets it through. -/
namespace Haruspex.Tasks
open Runs
set_option autoImplicit false

variable {F J : Type}

/-! ## Operations -/

inductive Op (F J : Type) where
  | create (kind : TaskKind) (owner label : String) (follower : TaskFollower) (spec : J)
      (uuid : String) (nowMs : ℕ)
  | update (id : String) (patch : TaskPatch F J) (nowMs instant : ℕ)
  | cancel (id : String) (heard : Bool)
  | takeNotices (owner : String)
  | removeOwner (owner : String)

section

variable [OfNat F 100]

def Op.apply (op : Op F J) (entries : Entries F J) : Entries F J :=
  match op with
  | .create kind owner label follower spec uuid nowMs =>
    insertTask entries (newTask kind owner label follower spec uuid nowMs)
  | .update id patch nowMs instant => (Tasks.update entries id patch nowMs instant).2
  | .cancel id heard => (Tasks.cancel entries id heard).2
  | .takeNotices owner => (Tasks.takeNotices entries owner).2
  | .removeOwner owner => Tasks.removeOwner entries owner

end

/-- A new task's id is new (`Uuid::new_v4`). -/
def FreshId (entries : Entries F J) (op : Op F J) : Prop :=
  match op with
  | .create kind _ _ _ _ uuid _ => entries.get (kindWord kind ++ "-" ++ uuid) = none
  | _ => True

/-! ## What is to hold -/

def SameButNotice (t t' : BackgroundTask F J) : Prop :=
  { t' with noticeDelivered := t.noticeDelivered } = t

/-- An operation leaves each ended task as it ended, or its owner goes. -/
def EndedStays [OfNat F 100] (entries : Entries F J) (op : Op F J) : Prop :=
  ∀ id e, entries.get id = some e → e.task.state.ended = true →
    op = .removeOwner e.task.owner ∨
      ∃ e', (op.apply entries).get id = some e' ∧ SameButNotice e.task e'.task

/-- What a task shows of its end. -/
structure ShowsEnd [OfNat F 100] (t : BackgroundTask F J) : Prop where
  ended : t.state.ended = true ↔ t.endedMs.isSome = true
  done : t.state = .done → t.percent = some 100 ∧ t.etaSecs = none ∧ t.queuePosition = none

/-- Progress that comes after a task has ended only repeats what the task shows. -/
def RepeatsLate (entries : Entries F J) (op : Op F J) : Prop :=
  match op with
  | .update id patch _ _ => ∀ e, entries.get id = some e → e.task.state.ended = true →
      patch.progressOnly = true →
      (∀ p, patch.percent = some p → e.task.percent = some p) ∧
      (∀ s, patch.etaSecs = some s → e.task.etaSecs = some s) ∧
      (∀ p, patch.phase = some p → e.task.phase = some p) ∧
      ∀ q, patch.queuePosition = some q → e.task.queuePosition = some q
  | _ => True

theorem SameButNotice.refl (t : BackgroundTask F J) : SameButNotice t t := rfl

/-! ## Patches -/

theorem or_eq_right {α : Type} {a b : Option α} (h : ∀ x, a = some x → b = some x) : a.or b = b := by
  cases a with
  | none => rfl
  | some x => exact (h x rfl).symm

theorem eq_of_or_eq {α : Type} {a b : Option α} (h : a.or b = b) (x : α) (hx : a = some x) :
    b = some x := by
  rw [hx] at h
  exact h.symm

namespace TaskPatch

variable {p : TaskPatch F J}

variable [OfNat F 100]

/-- A task that has not ended shows its end once it has. -/
theorem apply_showsEnd (p : TaskPatch F J) {t : BackgroundTask F J} (nowMs : ℕ) (h : ShowsEnd t)
    (hopen : t.state.ended = false) : ShowsEnd (p.apply t nowMs) := by
  have hended : t.endedMs = none := by
    rw [← Option.not_isSome_iff_eq_none, ← h.ended, hopen]
    decide
  unfold apply
  dsimp only
  split
  · refine ⟨h.ended, fun hdone => ?_⟩
    have hno : t.state = .done := hdone
    rw [hno] at hopen
    cases hopen
  · rename_i s _
    split
    · rename_i hs
      refine ⟨⟨fun _ => rfl, fun _ => hs⟩, fun hdone => ?_⟩
      have hs' : s = .done := hdone
      exact ⟨if_pos hs', rfl, rfl⟩
    · rename_i hs
      refine ⟨?_, fun hdone => ?_⟩
      · dsimp only
        rw [hended]
        exact ⟨fun h => absurd h hs, fun h => by cases h⟩
      · have hs' : s = .done := hdone
        rw [hs'] at hs
        exact absurd rfl hs

end TaskPatch

/-! ## One operation -/

theorem hear_same (owner : String) (e : Entry F J) : SameButNotice e.task (e.hear owner).task := by
  unfold Entry.hear SameButNotice
  split <;> rfl

section

variable [OfNat F 100] {entries : Entries F J} {id : String} {e : Entry F J}

/-- Progress that only repeats what the task shows changes nothing. -/
theorem apply_repeats {patch : TaskPatch F J} {nowMs instant : ℕ}
    (h : RepeatsLate entries (.update id patch nowMs instant)) (he : entries.get id = some e)
    (hended : e.task.state.ended = true) (hpatch : patch.progressOnly = true) :
    patch.apply e.task nowMs = e.task := by
  obtain ⟨hpercent, heta, hphase, hqueue⟩ := h e he hended hpatch
  rw [TaskPatch.apply_progress hpatch, or_eq_right hpercent, or_eq_right heta, or_eq_right hphase,
    or_eq_right hqueue]

theorem update_endedStays_iff (id : String) (patch : TaskPatch F J) (nowMs instant : ℕ) :
    EndedStays entries (.update id patch nowMs instant) ↔
      RepeatsLate entries (.update id patch nowMs instant) := by
  constructor
  · intro h e he hended hpatch
    obtain ⟨entry, _, hentry, hput⟩ := update_applies nowMs instant he (Or.inr hpatch)
    have hid : entry.task.id = id := by
      rw [hentry, TaskPatch.apply_id]
      exact get_id he
    rcases h id e he hended with hremove | ⟨e', he', hsame⟩
    · cases hremove
    · rw [Op.apply, hput, get_put_self hid he, Option.some_inj] at he'
      rw [← he', hentry, TaskPatch.apply_progress hpatch, SameButNotice] at hsame
      refine ⟨?_, ?_, ?_, ?_⟩
      · exact eq_of_or_eq (congrArg BackgroundTask.percent hsame)
      · exact eq_of_or_eq (congrArg BackgroundTask.etaSecs hsame)
      · exact eq_of_or_eq (congrArg BackgroundTask.phase hsame)
      · exact eq_of_or_eq (congrArg BackgroundTask.queuePosition hsame)
  · intro h other e he hended
    refine Or.inr ?_
    rw [Op.apply]
    cases hfound : entries.get id with
    | none =>
      rw [update_of_none patch nowMs instant hfound]
      exact ⟨e, he, SameButNotice.refl _⟩
    | some e' =>
      by_cases hlet : e'.task.state.ended = false ∨ patch.progressOnly = true
      · obtain ⟨entry, _, hentry, hput⟩ := update_applies nowMs instant hfound hlet
        have hid : entry.task.id = id := by
          rw [hentry, TaskPatch.apply_id]
          exact get_id hfound
        rw [hput]
        by_cases hother : other = id
        · rw [hother, hfound, Option.some_inj] at he
          rw [he] at hfound hlet hentry
          have hpatch := hlet.resolve_left (by rw [hended]; decide)
          refine ⟨entry, by rw [hother]; exact get_put_self hid hfound, ?_⟩
          rw [hentry, apply_repeats h hfound hended hpatch]
          exact SameButNotice.refl _
        · exact ⟨e, by rw [get_put_other hid hother]; exact he, SameButNotice.refl _⟩
      · rw [not_or, Bool.not_eq_false, Bool.not_eq_true] at hlet
        rw [update_late nowMs instant hfound hlet.1 hlet.2]
        exact ⟨e, he, SameButNotice.refl _⟩

theorem update_showsEnd {patch : TaskPatch F J} {nowMs instant : ℕ}
    (hshow : ∀ e ∈ entries, ShowsEnd e.task)
    (h : RepeatsLate entries (.update id patch nowMs instant)) :
    ∀ e ∈ (update entries id patch nowMs instant).2, ShowsEnd e.task := by
  cases hfound : entries.get id with
  | none =>
    rw [update_of_none patch nowMs instant hfound]
    exact hshow
  | some e =>
    by_cases hlet : e.task.state.ended = false ∨ patch.progressOnly = true
    · obtain ⟨entry, _, hentry, hput⟩ := update_applies nowMs instant hfound hlet
      rw [hput]
      intro x hx
      rcases mem_put hx with rfl | hold
      · have he := hshow e (get_mem hfound)
        rw [hentry]
        cases hended : e.task.state.ended with
        | false => exact TaskPatch.apply_showsEnd patch nowMs he hended
        | true =>
          have hpatch := hlet.resolve_left (by rw [hended]; decide)
          rw [apply_repeats h hfound hended hpatch]
          exact he
      · exact hshow x hold
    · rw [not_or, Bool.not_eq_false, Bool.not_eq_true] at hlet
      rw [update_late nowMs instant hfound hlet.1 hlet.2]
      exact hshow

theorem newTask_showsEnd (kind : TaskKind) (owner label : String) (follower : TaskFollower)
    (spec : J) (uuid : String) (nowMs : ℕ) :
    ShowsEnd (newTask kind owner label follower spec uuid nowMs : BackgroundTask F J) := by
  cases follower
  · exact ⟨⟨nofun, nofun⟩, nofun⟩
  · exact ⟨⟨nofun, nofun⟩, nofun⟩

theorem showsEnd_of_same {t t' : BackgroundTask F J} (hsame : SameButNotice t t') (h : ShowsEnd t) :
    ShowsEnd t' := by
  rw [← hsame] at h
  exact ⟨h.ended, h.done⟩

theorem endedStays_of_repeats {op : Op F J} (hfresh : FreshId entries op)
    (h : RepeatsLate entries op) : EndedStays entries op := by
  cases op with
  | update id patch nowMs instant => exact (update_endedStays_iff id patch nowMs instant).mpr h
  | create kind owner label follower spec uuid nowMs =>
    intro id e he _
    have hne : id ≠ kindWord kind ++ "-" ++ uuid := by
      rintro rfl
      rw [hfresh] at he
      cases he
    exact Or.inr ⟨e, (get_insert_other hne).trans he, SameButNotice.refl _⟩
  | cancel other heard =>
    intro id e he _
    refine Or.inr ?_
    show ∃ e', (cancel entries other heard).2.get id = some e' ∧ SameButNotice e.task e'.task
    rcases cancel_cases entries other heard with hsame | ⟨e', entry, he', htask, hput⟩
    · rw [hsame]
      exact ⟨e, he, SameButNotice.refl _⟩
    · have hid : entry.task.id = other := by rw [htask, get_id he']
      rw [hput]
      by_cases hother : id = other
      · rw [hother, he', Option.some_inj] at he
        refine ⟨entry, by rw [hother]; exact get_put_self hid he', ?_⟩
        rw [htask, he]
        exact SameButNotice.refl _
      · exact ⟨e, by rw [get_put_other hid hother]; exact he, SameButNotice.refl _⟩
  | takeNotices owner =>
    intro id e he _
    refine Or.inr ⟨e.hear owner, ?_, hear_same owner e⟩
    show Entries.get (entries.map (Entry.hear owner)) id = _
    rw [get_map (hear_id owner), he]
    rfl
  | removeOwner owner =>
    intro id e he _
    by_cases howner : e.task.owner = owner
    · exact Or.inl (by rw [howner])
    · exact Or.inr ⟨e, get_removeOwner he howner, SameButNotice.refl _⟩

theorem repeats_of_endedStays {op : Op F J} (h : EndedStays entries op) : RepeatsLate entries op := by
  cases op with
  | update id patch nowMs instant => exact (update_endedStays_iff id patch nowMs instant).mp h
  | _ => trivial

theorem showsEnd_step {op : Op F J} (hshow : ∀ e ∈ entries, ShowsEnd e.task)
    (h : RepeatsLate entries op) : ∀ e ∈ op.apply entries, ShowsEnd e.task := by
  cases op with
  | update id patch nowMs instant => exact update_showsEnd hshow h
  | create kind owner label follower spec uuid nowMs =>
    intro e he
    rcases List.mem_append.mp he with hold | hnew
    · exact hshow e (List.mem_filter.mp hold).1
    · rw [List.mem_singleton.mp hnew]
      exact newTask_showsEnd kind owner label follower spec uuid nowMs
  | cancel id heard =>
    rcases cancel_cases entries id heard with hsame | ⟨e', entry, he', htask, hput⟩
    · rw [Op.apply, hsame]
      exact hshow
    · intro e he
      rw [Op.apply, hput] at he
      rcases mem_put he with rfl | hold
      · rw [htask]
        exact hshow e' (get_mem he')
      · exact hshow e hold
  | takeNotices owner =>
    intro e he
    obtain ⟨e', he', rfl⟩ := List.mem_map.mp he
    exact showsEnd_of_same (hear_same owner e') (hshow e' he')
  | removeOwner owner => exact fun e he => hshow e (List.mem_filter.mp he).1

end

/-! ## Runs -/

section

variable [OfNat F 100]

/-- A row whose task shows its end at once when it is loaded. -/
def RowShowsEnd (nowMs : ℕ) (r : Row J) : Prop :=
  expired nowMs r = true ∨ died r = true ∨
    r.state ≠ .done ∧ (r.state.ended = true ↔ r.endedMs.isSome = true)

theorem relaunch_showsEnd_iff (nowMs : ℕ) (r : Row J) :
    ShowsEnd (relaunch nowMs r : BackgroundTask F J) ↔
      died r = true ∨ r.state ≠ .done ∧ (r.state.ended = true ↔ r.endedMs.isSome = true) := by
  unfold relaunch
  split
  · rename_i hdied
    refine ⟨fun _ => Or.inl hdied, fun _ => ⟨⟨fun _ => rfl, fun _ => rfl⟩, fun h => by cases h⟩⟩
  · rename_i hdied
    constructor
    · intro h
      refine Or.inr ⟨fun hdone => ?_, h.ended⟩
      cases (h.done hdone).1
    · rintro (h | ⟨hstate, hended⟩)
      · exact absurd h hdied
      · exact ⟨hended, fun hdone => absurd hdone hstate⟩

theorem opened_showsEnd_iff (saved : List (Row J)) (nowMs : ℕ) :
    (∀ e ∈ (opened saved nowMs : Entries F J), ShowsEnd e.task) ↔
      ∀ r ∈ saved, RowShowsEnd nowMs r := by
  constructor
  · intro h r hr
    cases hexpired : expired nowMs r with
    | true => exact Or.inl hexpired
    | false =>
      exact Or.inr ((relaunch_showsEnd_iff nowMs r).mp
        (h _ (mem_opened.mpr ⟨r, hr, hexpired, rfl⟩)))
  · intro h e he
    obtain ⟨r, hr, hexpired, rfl⟩ := mem_opened.mp he
    refine (relaunch_showsEnd_iff nowMs r).mpr ((h r hr).resolve_left ?_)
    rw [hexpired]
    decide

/-- An ended task stays as it ended, and shows it, exactly as long as progress that comes late only
repeats what the task shows. -/
theorem ended_tasks_stay_iff (saved : List (Row J)) (nowMs : ℕ) (ops : List (Op F J))
    (hfresh : EveryStep Op.apply (opened saved nowMs) ops FreshId) :
    (EveryStep Op.apply (opened saved nowMs) ops EndedStays ∧
        ∀ before after, ops = before ++ after →
          ∀ e ∈ run Op.apply (opened saved nowMs) before, ShowsEnd e.task) ↔
      (∀ r ∈ saved, RowShowsEnd nowMs r) ∧ EveryStep Op.apply (opened saved nowMs) ops RepeatsLate := by
  constructor
  · rintro ⟨hstay, hshow⟩
    refine ⟨(opened_showsEnd_iff saved nowMs).mp (hshow [] ops rfl), ?_⟩
    exact fun before op after hops => repeats_of_endedStays (hstay before op after hops)
  · rintro ⟨hsaved, hrepeats⟩
    refine ⟨fun before op after hops => ?_, ?_⟩
    · exact endedStays_of_repeats (hfresh before op after hops) (hrepeats before op after hops)
    · rintro before after rfl
      exact run_keeps (fun entries => ∀ e ∈ entries, ShowsEnd e.task) (fun _ _ => showsEnd_step)
        ((opened_showsEnd_iff saved nowMs).mpr hsaved) (everyStep_append.mp hrepeats).1

/-! A song is done; then its progress comes. -/

def song (late : ℕ) : List (Op ℕ Unit) :=
  [.create .music "chat:a" "Song" .frontend () "1" 10,
    .update "music-1" ⟨some .done, none, none, none, none, none, some (), none, none⟩ 20 20,
    .update "music-1" ⟨none, some late, none, none, none, none, none, none, none⟩ 30 30]

theorem song_fresh (late : ℕ) : EveryStep Op.apply (opened [] 0) (song late) FreshId :=
  everyStep_cons.mpr ⟨rfl, everyStep_cons.mpr ⟨trivial, everyStep_cons.mpr ⟨trivial,
    everyStep_nil _ _⟩⟩⟩

theorem ended_tasks_stay_iff_song : EveryStep Op.apply (opened [] 0) (song 100) EndedStays := by
  refine ((ended_tasks_stay_iff [] 0 (song 100) (song_fresh 100)).mpr ⟨by simp, ?_⟩).1
  refine everyStep_cons.mpr ⟨trivial, everyStep_cons.mpr ⟨?_, everyStep_cons.mpr ⟨?_,
    everyStep_nil _ _⟩⟩⟩
  · intro e _ _ hpatch
    cases hpatch
  · intro e he _ _
    have hshown : e.task.percent = some 100 := by
      obtain ⟨entry, hentry, hpercent⟩ : ∃ entry : Entry ℕ Unit,
          (run Op.apply (opened [] 0) ((song 100).take 2)).get "music-1" = some entry ∧
            entry.task.percent = some 100 := by
        refine ⟨_, rfl, ?_⟩
        decide
      rw [Option.some.inj (he.symm.trans hentry)]
      exact hpercent
    exact ⟨fun p hp => hshown.trans hp, nofun, nofun, nofun⟩

theorem late_progress_shown :
    ¬ (EveryStep Op.apply (opened [] 0) (song 40) EndedStays ∧
      ∀ before after, song 40 = before ++ after →
        ∀ e ∈ run Op.apply (opened [] 0) before, ShowsEnd e.task) := by
  rintro ⟨-, hshow⟩
  have hdone := (hshow (song 40) [] (List.append_nil _).symm _ (List.mem_singleton.mpr rfl)).done
  exact absurd (hdone rfl).1 (by decide)

end

end Haruspex.Tasks
