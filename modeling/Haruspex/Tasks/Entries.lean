import Haruspex.Tasks.Model
import Mathlib.Tactic.Tauto

/-! The map of entries by id, and what one update does to it. -/
namespace Haruspex.Tasks
set_option autoImplicit false

variable {F J : Type} {entries : Entries F J} {id : String} {e : Entry F J}

theorem get_id (h : entries.get id = some e) : e.task.id = id := by
  have hfound := List.find?_some h
  simpa using hfound

theorem get_mem (h : entries.get id = some e) : e ∈ entries := List.mem_of_find?_eq_some h

/-- A change of entries that keeps their ids is a change of what is found under each. -/
theorem get_map {f : Entry F J → Entry F J} (hf : ∀ e, (f e).task.id = e.task.id)
    (entries : Entries F J) (id : String) :
    Entries.get (entries.map f) id = (entries.get id).map f := by
  rw [Entries.get, Entries.get, List.find?_map]
  congr 2
  funext e
  simp [hf e]

theorem put_eq_map (entry : Entry F J) (entries : Entries F J) (id : String) :
    entries.put id entry = entries.map (fun e => if e.task.id = id then entry else e) := rfl

theorem get_put_self {entry : Entry F J} (hid : entry.task.id = id) (h : entries.get id = some e) :
    (entries.put id entry).get id = some entry := by
  rw [put_eq_map, get_map (fun e => by split <;> simp_all), h, Option.map_some, if_pos (get_id h)]

theorem get_put_other {entry : Entry F J} (hid : entry.task.id = id) {other : String}
    (hne : other ≠ id) : (entries.put id entry).get other = entries.get other := by
  rw [put_eq_map, get_map (fun e => by split <;> simp_all)]
  cases h : entries.get other with
  | none => rfl
  | some e =>
    have hother := get_id h
    rw [Option.map_some, if_neg (by rw [hother]; exact hne)]

theorem mem_put {entry : Entry F J} {x : Entry F J} (h : x ∈ entries.put id entry) :
    x = entry ∨ x ∈ entries := by
  obtain ⟨e, he, rfl⟩ := List.mem_map.mp h
  split
  · exact Or.inl rfl
  · exact Or.inr he

theorem get_without_other {other : String} (hne : id ≠ other) (entries : Entries F J) :
    Entries.get (entries.filter (fun e => e.task.id ≠ other)) id = entries.get id := by
  rw [Entries.get, Entries.get, List.find?_filter]
  congr 1
  funext e
  by_cases h : e.task.id = id
  · simp [h, hne]
  · simp [h]

theorem get_without_self (entries : Entries F J) (id : String) :
    Entries.get (entries.filter (fun e => e.task.id ≠ id)) id = none := by
  rw [Entries.get, List.find?_eq_none]
  intro e he
  simpa using (List.mem_filter.mp he).2

theorem get_insert_other {task : BackgroundTask F J} (hne : id ≠ task.id) :
    (insertTask entries task).get id = entries.get id := by
  have hold := get_without_other hne entries
  rw [Entries.get] at hold
  have hnew : List.find? (fun e : Entry F J => e.task.id = id) [⟨task, false, none⟩] = none := by
    simp [Ne.symm hne]
  rw [insertTask, Entries.get, List.find?_append, hold, hnew, Option.or_none]

theorem get_insert_self (entries : Entries F J) (task : BackgroundTask F J) :
    (insertTask entries task).get task.id = some ⟨task, false, none⟩ := by
  have hold := get_without_self entries task.id
  rw [Entries.get] at hold
  rw [insertTask, Entries.get, List.find?_append, hold]
  simp

theorem get_removeOwner {owner : String} (h : entries.get id = some e) (hne : e.task.owner ≠ owner) :
    (removeOwner entries owner).get id = some e := by
  rw [removeOwner, Entries.get, List.find?_filter]
  rw [Entries.get, List.find?_eq_some_iff_append] at h
  obtain ⟨hid, before, after, hsplit, hbefore⟩ := h
  rw [List.find?_eq_some_iff_append]
  refine ⟨?_, before, after, hsplit, ?_⟩
  · simp only [decide_eq_true_eq] at hid ⊢
    exact ⟨hne, hid⟩
  · intro x hx
    have hno := hbefore x hx
    simp only [Bool.not_eq_true', decide_eq_false_iff_not, decide_eq_true_eq] at hno ⊢
    exact fun hboth => hno hboth.2

/-! ## Stops and notices -/

/-- `cancel` takes a stop at most; no task changes. -/
theorem cancel_cases (entries : Entries F J) (id : String) (heard : Bool) :
    (cancel entries id heard).2 = entries ∨ ∃ e entry, entries.get id = some e ∧
      entry.task = e.task ∧ (cancel entries id heard).2 = entries.put id entry := by
  unfold cancel
  cases h : entries.get id with
  | none => exact Or.inl rfl
  | some e =>
    dsimp only
    split
    · exact Or.inl rfl
    · exact Or.inr ⟨e, { e with cancel := false }, rfl, rfl, rfl⟩

theorem hear_id (owner : String) (e : Entry F J) : (e.hear owner).task.id = e.task.id := by
  unfold Entry.hear
  split <;> rfl

theorem hear_of_none {owner : String} (h : hasNotice owner e.task = false) : e.hear owner = e := by
  rw [Entry.hear, h]
  rfl

theorem get_takeNotices (entries : Entries F J) (owner id : String) :
    (takeNotices entries owner).2.get id = (entries.get id).map (Entry.hear owner) :=
  get_map (hear_id owner) entries id

theorem mem_takeNotices {owner : String} {t : BackgroundTask F J} :
    t ∈ (takeNotices entries owner).1 ↔
      ∃ e ∈ entries, hasNotice owner e.task = true ∧ t = (e.hear owner).task := by
  simp only [takeNotices, List.mem_insertionSort, List.mem_map, List.mem_filter]
  constructor
  · rintro ⟨e, ⟨he, hnotice⟩, rfl⟩
    exact ⟨e, he, hnotice, by rw [Entry.hear, if_pos hnotice]⟩
  · rintro ⟨e, he, hnotice, rfl⟩
    exact ⟨e, ⟨he, hnotice⟩, by rw [Entry.hear, if_pos hnotice]⟩

/-! ## Distinct ids -/

/-- The ids of a map's entries. -/
def Entries.ids (entries : Entries F J) : List String := entries.map (fun e => e.task.id)

theorem get_of_mem (hnodup : entries.ids.Nodup) (he : e ∈ entries) :
    entries.get e.task.id = some e := by
  induction entries with
  | nil => cases he
  | cons first entries ih =>
    obtain ⟨hfirst, hrest⟩ := List.nodup_cons.mp hnodup
    rw [Entries.get, List.find?_cons]
    by_cases hid : first.task.id = e.task.id
    · rcases List.mem_cons.mp he with rfl | hmem
      · simp
      · refine absurd (List.mem_map.mpr ⟨e, hmem, ?_⟩) hfirst
        exact hid.symm
    · rcases List.mem_cons.mp he with rfl | hmem
      · exact absurd rfl hid
      · have hfound := ih hrest hmem
        rw [Entries.get] at hfound
        simpa [hid] using hfound

theorem ids_map {f : Entry F J → Entry F J} (hf : ∀ e, (f e).task.id = e.task.id)
    (entries : Entries F J) : Entries.ids (entries.map f) = entries.ids := by
  rw [Entries.ids, Entries.ids, List.map_map]
  exact List.map_congr_left (fun e _ => hf e)

theorem ids_put {entry : Entry F J} (hid : entry.task.id = id) (entries : Entries F J) :
    (entries.put id entry).ids = entries.ids := by
  rw [put_eq_map, ids_map]
  intro e
  split
  · rename_i h
    rw [hid, h]
  · rfl

theorem nodup_filter (hnodup : entries.ids.Nodup) (p : Entry F J → Bool) :
    (Entries.ids (entries.filter p)).Nodup :=
  hnodup.sublist (List.filter_sublist.map _)

theorem nodup_insert (hnodup : entries.ids.Nodup) (task : BackgroundTask F J) :
    (insertTask entries task).ids.Nodup := by
  rw [insertTask, Entries.ids, List.map_append, List.nodup_append]
  refine ⟨nodup_filter hnodup _, List.nodup_singleton _, ?_⟩
  intro id hid other hother hsame
  obtain ⟨e, he, rfl⟩ := List.mem_map.mp hid
  have hne := (List.mem_filter.mp he).2
  rw [hsame, List.mem_singleton.mp hother] at hne
  simp at hne

theorem get_removeOwner_eq (hnodup : entries.ids.Nodup) (owner id : String) :
    (removeOwner entries owner).get id =
      (entries.get id).filter (fun e => e.task.owner ≠ owner) := by
  cases h : (removeOwner entries owner).get id with
  | some e =>
    obtain ⟨he, hne⟩ := List.mem_filter.mp (get_mem h)
    have hold := get_of_mem hnodup he
    rw [get_id h] at hold
    rw [hold, Option.filter_some, if_pos hne]
  | none =>
    symm
    rw [Option.filter_eq_none_iff]
    intro e he hne
    rw [get_removeOwner he (by simpa using hne)] at h
    cases h

/-! ## Patches -/

namespace TaskPatch

variable {p : TaskPatch F J}

theorem progressOnly_iff : p.progressOnly = true ↔
    p.state = none ∧ p.handle = none ∧ p.result = none ∧ p.error = none ∧ p.logTail = none := by
  simp only [progressOnly, Bool.and_eq_true, Option.isNone_iff_eq_none]
  tauto

variable [OfNat F 100]

/-- What a patch of progress alone does. -/
theorem apply_progress (h : p.progressOnly = true) (t : BackgroundTask F J) (nowMs : ℕ) :
    p.apply t nowMs = { t with
      percent := p.percent.or t.percent
      etaSecs := p.etaSecs.or t.etaSecs
      phase := p.phase.or t.phase
      queuePosition := p.queuePosition.or t.queuePosition } := by
  obtain ⟨hstate, hhandle, hresult, herror, hlog⟩ := progressOnly_iff.mp h
  rw [apply, hstate, hhandle, hresult, herror, hlog]
  rfl

theorem apply_id (p : TaskPatch F J) (t : BackgroundTask F J) (nowMs : ℕ) :
    (p.apply t nowMs).id = t.id := by
  unfold apply
  dsimp only
  split
  · rfl
  · split <;> rfl

end TaskPatch

/-! ## Updates -/

variable [OfNat F 100]

theorem update_of_none (patch : TaskPatch F J) (nowMs instant : ℕ) (h : entries.get id = none) :
    update entries id patch nowMs instant = (.error taskGone, entries) := by
  rw [update, h]

theorem update_late {patch : TaskPatch F J} (nowMs instant : ℕ) (h : entries.get id = some e)
    (hended : e.task.state.ended = true) (hpatch : patch.progressOnly = false) :
    update entries id patch nowMs instant = (.ok ⟨e.task, false, false⟩, entries) := by
  rw [update, h]
  dsimp only
  rw [hended, hpatch]
  rfl

/-- An update that is let through. -/
theorem update_applies {patch : TaskPatch F J} (nowMs instant : ℕ) (h : entries.get id = some e)
    (hlet : e.task.state.ended = false ∨ patch.progressOnly = true) :
    ∃ entry send, entry.task = patch.apply e.task nowMs ∧
      update entries id patch nowMs instant =
        (.ok ⟨patch.apply e.task nowMs, !patch.progressOnly, send⟩, entries.put id entry) := by
  have hcond : (e.task.state.ended && !patch.progressOnly) = false := by
    rcases hlet with h | h <;> simp [h]
  rw [update, h]
  dsimp only
  rw [if_neg (by rw [hcond]; decide)]
  exact ⟨⟨patch.apply e.task nowMs, _, _⟩, _, rfl, rfl⟩

end Haruspex.Tasks
