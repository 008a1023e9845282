import Haruspex.CodeFolders.Overlap
import Haruspex.Library.KeyedMap
import Haruspex.Library.Runs

/-! The writer leases of folders: one session at a time (`code_tools/folders.rs`). -/
namespace Haruspex.CodeFolders
open KeyedMap Exclusive Runs
set_option autoImplicit false

structure Lease where
  /-- A folder's key. -/
  folder : String
  title : String
  window : String
  deriving DecidableEq

structure Inner where
  /-- The leases by the sessions that hold them. -/
  leases : Dict String Lease
  clock : ℤ

namespace Inner

def default : Inner := ⟨∅, 0⟩

/-- A lease of a map of them, with the session that holds it. -/
abbrev Held := Sigma (fun _ : String => Lease)

section

variable {C : Type} [DecidableEq C] (components : String → List C) (walk : List Held → List Held)

/-- Take a folder's lease for a session; the error is the title of the session that has it. The map
is walked in an order of its own. -/
def take (inner : Inner) (folder session title window : String) (alive : String → Bool) :
    Except String Unit × Inner :=
  let leases := keep (fun _ l => alive l.window) inner.leases
  match (walk leases.entries).find?
    (fun held => held.1 ≠ session && overlaps components held.2.folder folder) with
  | some holder => (.error holder.2.title, { inner with leases := leases })
  | none => (.ok (), { inner with leases := leases.insert session ⟨folder, title, window⟩ })

def release (inner : Inner) (session : String) : Inner :=
  { inner with leases := inner.leases.erase session }

def releaseWindow (inner : Inner) (label : String) : Inner :=
  { inner with leases := keep (fun _ l => l.window ≠ label) inner.leases }

/-! ## Calls -/

/-- A call, with what is known of the windows when it is made. -/
inductive Call where
  | take (folder session title window : String) (alive : String → Bool)
  | release (session : String)
  | releaseWindow (label : String)

def apply : Call → Inner → Inner
  | .take folder session title window alive, inner =>
    (inner.take components walk folder session title window alive).2
  | .release session, inner => inner.release session
  | .releaseWindow label, inner => inner.releaseWindow label

/-- What each `take` was told of the windows. -/
def answers : List Call → List (String → Bool)
  | [] => []
  | .take _ _ _ _ alive :: calls => alive :: answers calls
  | _ :: calls => answers calls

end

/-- A window that is alive later was alive before. -/
def StayDead (before after : String → Bool) : Prop := ∀ window, after window = true → before window = true

/-! ## What a take does -/

section

variable {C : Type} [DecidableEq C] (components : String → List C) {walk : List Held → List Held}

def Conflict (l l' : Lease) : Prop :=
  Overlap (place components l.folder) (place components l'.folder)

theorem Conflict.symm {l l' : Lease} (h : Conflict components l l') : Conflict components l' l :=
  Overlap.symm h

/-- Another session, whose window is alive, has a lease that overlaps a folder. -/
def Taken (inner : Inner) (folder session : String) (alive : String → Bool) (id : String)
    (l : Lease) : Prop :=
  inner.leases.lookup id = some l ∧ id ≠ session ∧ alive l.window = true ∧
    Overlap (place components l.folder) (place components folder)

theorem take_cases (hwalk : ∀ held, (walk held).Perm held) (inner : Inner)
    (folder session title window : String) (alive : String → Bool) :
    (∃ id l, Taken components inner folder session alive id l ∧
      inner.take components walk folder session title window alive =
        (.error l.title, { inner with leases := keep (fun _ l => alive l.window) inner.leases })) ∨
    ((∀ id l, ¬ Taken components inner folder session alive id l) ∧
      inner.take components walk folder session title window alive =
        (.ok (), { inner with
          leases := (keep (fun _ l => alive l.window) inner.leases).insert session
            ⟨folder, title, window⟩ })) := by
  have hkept (id : String) (l : Lease) :
      ⟨id, l⟩ ∈ walk (keep (fun _ l => alive l.window) inner.leases).entries ↔
        inner.leases.lookup id = some l ∧ alive l.window = true := by
    rw [(hwalk _).mem_iff, mem_entries, lookup_keep, Option.filter_eq_some_iff]
  unfold take
  dsimp only
  split
  · rename_i holder hfound
    obtain ⟨hlookup, halive⟩ := (hkept holder.1 holder.2).mp (List.mem_of_find?_eq_some hfound)
    have hother := List.find?_some hfound
    rw [Bool.and_eq_true, overlaps_iff] at hother
    exact Or.inl ⟨holder.1, holder.2, ⟨hlookup, by simpa using hother.1, halive, hother.2⟩, rfl⟩
  · rename_i hnone
    refine Or.inr ⟨fun id l hl => ?_, rfl⟩
    obtain ⟨hlookup, hother, halive, hoverlap⟩ := hl
    have hfree := List.find?_eq_none.mp hnone ⟨id, l⟩ ((hkept id l).mpr ⟨hlookup, halive⟩)
    rw [Bool.and_eq_true, overlaps_iff] at hfree
    exact hfree ⟨by simpa using hother, hoverlap⟩

/-! ## One writer -/

/-- No two sessions whose windows are alive have leases of folders that overlap. -/
def OneWriter (alive : String → Bool) (inner : Inner) : Prop :=
  Exclusive (Conflict components) (fun l => alive l.window = true) inner.leases

theorem take_oneWriter (hwalk : ∀ held, (walk held).Perm held) {inner : Inner}
    {alive : String → Bool} (h : OneWriter components alive inner)
    (folder session title window : String) :
    OneWriter components alive
      (inner.take components walk folder session title window alive).2 := by
  have hkept : OneWriter components alive
      { inner with leases := keep (fun _ l => alive l.window) inner.leases } := by
    refine h.shrink fun id l hl => ?_
    rw [lookup_keep, Option.filter_eq_some_iff] at hl
    exact hl.1
  obtain ⟨_, _, _, htake⟩ | ⟨hfree, htake⟩ :=
    take_cases components hwalk inner folder session title window alive
  · rw [htake]
    exact hkept
  · rw [htake]
    refine Exclusive.insert hkept (fun _ _ => Conflict.symm components) fun id l hl hne hconflict => ?_
    rw [lookup_keep, Option.filter_eq_some_iff] at hl
    exact hfree id l ⟨hl.1, hne, hl.2, hconflict⟩

theorem run_oneWriter (hwalk : ∀ held, (walk held).Perm held) {calls : List Call}
    {alive : String → Bool} (hdead : (answers calls ++ [alive]).Pairwise StayDead) {inner : Inner}
    (h : ∀ a ∈ answers calls ++ [alive], OneWriter components a inner) :
    OneWriter components alive (run (apply components walk) inner calls) := by
  induction calls generalizing inner with
  | nil => exact h alive (List.mem_singleton_self alive)
  | cons call calls ih =>
    rw [run_cons]
    cases call with
    | take folder session title window now =>
      rw [answers, List.cons_append, List.pairwise_cons] at hdead
      have htaken := take_oneWriter components hwalk (h now List.mem_cons_self) folder session title
        window
      exact ih hdead.2 fun a ha => htaken.mono fun l => hdead.1 a ha l.window
    | release session =>
      refine ih hdead fun a ha => (h a ha).shrink fun id l hl => ?_
      have hl' : (inner.leases.erase session).lookup id = some l := hl
      rw [lookup_erase_eq] at hl'
      split at hl'
      · cases hl'
      · exact hl'
    | releaseWindow label =>
      refine ih hdead fun a ha => (h a ha).shrink fun id l hl => ?_
      have hl' : (keep (fun _ l => l.window ≠ label) inner.leases).lookup id = some l := hl
      rw [lookup_keep, Option.filter_eq_some_iff] at hl'
      exact hl'.1

/-- After any calls there is one writer for each folder; a take that is refused names a session that
is in its way, and leaves the leases of windows that are alive as they are; and it is refused just
when a session is in its way. -/
theorem one_writer_per_folder (hwalk : ∀ held, (walk held).Perm held) (calls : List Call)
    (alive : String → Bool) (hdead : (answers calls ++ [alive]).Pairwise StayDead) :
    OneWriter components alive (run (apply components walk) default calls) ∧
      ∀ folder session title window,
        (∀ holder inner', (run (apply components walk) default calls).take components walk folder
            session title window alive = (.error holder, inner') →
          (∀ id l, alive l.window = true → (inner'.leases.lookup id = some l ↔
            (run (apply components walk) default calls).leases.lookup id = some l)) ∧
          ∃ id l, Taken components (run (apply components walk) default calls) folder session alive
            id l ∧ l.title = holder) ∧
        (((run (apply components walk) default calls).take components walk folder session title
            window alive).1 = .ok () ↔
          ∀ id l, ¬ Taken components (run (apply components walk) default calls) folder session
            alive id l) := by
  refine ⟨run_oneWriter components hwalk hdead fun _ _ => exclusive_empty,
    fun folder session title window => ?_⟩
  generalize run (apply components walk) default calls = inner
  obtain ⟨id, l, htaken, htake⟩ | ⟨hfree, htake⟩ :=
    take_cases components hwalk inner folder session title window alive
  · rw [htake]
    refine ⟨fun holder inner' heq => ?_, (nomatch ·), fun h => absurd htaken (h id l)⟩
    obtain ⟨htitle, rfl⟩ := Prod.mk.inj heq
    refine ⟨fun id' l' halive => ?_, id, l, htaken, Except.error.inj htitle⟩
    rw [lookup_keep, Option.filter_eq_some_iff]
    exact ⟨fun hl => hl.1, fun hl => ⟨hl, halive⟩⟩
  · rw [htake]
    refine ⟨fun holder inner' heq => ?_, fun _ => hfree, fun _ => rfl⟩
    cases (Prod.mk.inj heq).1

/-- Two sessions of one repository: the second is refused while the first one's window is there. -/
theorem one_writer_per_folder_shared :
    ((run (apply unixComponents id) default
        [.take "/repo" "a" "Alpha" "main" (fun _ => true)]).take unixComponents id "/repo/sub" "b"
          "Beta" "main" (fun _ => true)).1 ≠ .ok () := by
  intro hok
  have hshared := @one_writer_per_folder _ _ unixComponents id (fun _ => List.Perm.refl _)
    [.take "/repo" "a" "Alpha" "main" (fun _ => true)] (fun _ => true) (by simp [answers, StayDead])
  exact ((hshared.2 "/repo/sub" "b" "Beta" "main").2.mp hok) "a" ⟨"/repo", "Alpha", "main"⟩
    ⟨by decide, by decide, rfl, (overlaps_iff unixComponents _ _).mp (by decide)⟩

end

end Inner

end Haruspex.CodeFolders
