import Haruspex.CodeFolders.Leases
import Mathlib.Data.List.Sort

/-! Notices of changed files for the other sessions of a folder (`code_tools/folders.rs`,
`db/code_notices.rs`). -/
namespace Haruspex.CodeFolders
set_option autoImplicit false

/-! ## Rows -/

structure StoredNotice where
  id : ℕ
  /-- A folder's key. -/
  folder : String
  sessionId : String
  title : String
  files : List String
  time : ℤ
  deriving DecidableEq

/-- How far a saved session has heard. -/
structure SeenMark where
  id : String
  root : String
  wslDistro : Option String
  seen : ℤ
  deriving DecidableEq

/-- The key of a saved session's folder. -/
def SeenMark.key (m : SeenMark) : String := m.wslDistro.elim m.root (fun d => wslKey d m.root)

structure Database where
  /-- Rows by their ids, which are never used again. -/
  notices : List StoredNotice
  nextId : ℕ
  sessions : List SeenMark

namespace Database

/-- `ORDER BY at, id` -/
def codeNotices (db : Database) : List StoredNotice :=
  db.notices.insertionSort (fun n n' => n.time ≤ n'.time)

/-- A notice as its row will have it. -/
def newNotice (db : Database) (folder session title : String) (files : List String) (time : ℤ) :
    StoredNotice := ⟨db.nextId, folder, session, title, files, time⟩

def insertCodeNotice (db : Database) (n : StoredNotice) : Database :=
  { db with notices := db.notices ++ [n], nextId := db.nextId + 1 }

def deleteCodeNotices (db : Database) (ids : List ℕ) : Database :=
  { db with notices := db.notices.filter (fun n => n.id ∉ ids) }

/-- A turn saved, with how far its session has heard. -/
def saveSession (db : Database) (mark : SeenMark) : Database :=
  { db with sessions := db.sessions.filter (fun m => m.id ≠ mark.id) ++ [mark] }

end Database

def noticeMaxAgeMs : ℤ := 24 * 60 * 60 * 1000

def noticeCap : ℕ := 200

/-! ## Calls -/

/-- The next time to hand out. -/
def Inner.tick (inner : Inner) (now : ℤ) : Inner := { inner with clock := max now (inner.clock + 1) }

/-- The latest time of some notices. -/
def newest (stored : List StoredNotice) : Option ℤ := (stored.map StoredNotice.time).max?

/-- The time a new notice gets. -/
def Inner.tickPast (inner : Inner) (stored : List StoredNotice) (now : ℤ) : Inner :=
  inner.tick (((newest stored).map (· + 1)).elim now (max now))

section

variable {C : Type} [DecidableEq C] (components : String → List C)

/-- The notices of others that a session has not had yet. -/
def news (stored : List StoredNotice) (folder session : String) (since : ℤ) : List StoredNotice :=
  stored.filter (fun n => since < n.time && n.sessionId ≠ session && overlaps components n.folder folder)

/-- The clock as a session's look at some notices leaves it. -/
def Inner.look (inner : Inner) (stored : List StoredNotice) (now : ℤ) : Inner :=
  { inner with clock := (newest stored).elim (max now inner.clock) (max (max now inner.clock)) }

/-- Every other saved session in a folder that overlaps has heard a notice. -/
def heard (marks : List SeenMark) (n : StoredNotice) : Bool :=
  (marks.filter (fun m => m.id ≠ n.sessionId && overlaps components m.key n.folder)).all
    (fun m => n.time ≤ m.seen)

/-- Past the newest ones, or too old. -/
def stale (stored : List StoredNotice) (now : ℤ) : List StoredNotice :=
  ((stored.zipIdx).filter (fun (n, i) =>
    i < stored.length - noticeCap || noticeMaxAgeMs ≤ now - n.time)).map Prod.fst

/-- The notices that `prune` is done with. -/
def done (stored : List StoredNotice) (marks : List SeenMark) (now : ℤ) : List StoredNotice :=
  ((stored.zipIdx).filter (fun (n, i) => i < stored.length - noticeCap ||
    noticeMaxAgeMs ≤ now - n.time || heard components marks n)).map Prod.fst

def prune (db : Database) (now : ℤ) : Database :=
  db.deleteCodeNotices ((done components db.codeNotices db.sessions now).map StoredNotice.id)

/-- What a turn changed in a folder. -/
def record (inner : Inner) (db : Database) (folder session title : String) (files : List String)
    (now : ℤ) : Inner × Database :=
  if files = [] then (inner, db)
  else
    let inner := inner.tickPast db.codeNotices now
    (inner, prune components (db.insertCodeNotice
      (db.newNotice folder session title files inner.clock)) now)

/-- The notices since a time, and the time to pass next. -/
def takeNotices (inner : Inner) (db : Database) (folder session : String) (since now : ℤ) :
    (List StoredNotice × ℤ) × Inner × Database :=
  let inner' := inner.look db.codeNotices now
  ((news components db.codeNotices folder session since, inner'.clock), inner', prune components db now)

end

/-! ## What the calls go by -/

theorem mem_codeNotices {db : Database} {n : StoredNotice} : n ∈ db.codeNotices ↔ n ∈ db.notices :=
  (List.perm_insertionSort _ _).mem_iff

theorem le_newest {stored : List StoredNotice} {n : StoredNotice} (h : n ∈ stored) :
    ∃ time, newest stored = some time ∧ n.time ≤ time := by
  have hmem : n.time ∈ stored.map StoredNotice.time := List.mem_map_of_mem h
  have hsome := List.isSome_max?_of_mem hmem
  obtain ⟨time, htime⟩ := Option.isSome_iff_exists.mp hsome
  exact ⟨time, htime, (List.max?_eq_some_iff.mp htime).2 n.time hmem⟩

theorem tickPast_clock (inner : Inner) (stored : List StoredNotice) (now : ℤ) :
    inner.clock < (inner.tickPast stored now).clock ∧
      ∀ n ∈ stored, n.time < (inner.tickPast stored now).clock := by
  constructor
  · exact Int.lt_of_lt_of_le (Int.lt_succ inner.clock) (Int.le_max_right _ _)
  · intro n hmem
    obtain ⟨time, htime, hle⟩ := le_newest hmem
    have hpast : max now (time + 1) ≤ (inner.tickPast stored now).clock := by
      unfold Inner.tickPast
      rw [htime]
      exact Int.le_max_left _ _
    omega

theorem look_clock (inner : Inner) (stored : List StoredNotice) (now : ℤ) :
    inner.clock ≤ (inner.look stored now).clock ∧
      ∀ n ∈ stored, n.time ≤ (inner.look stored now).clock := by
  unfold Inner.look
  constructor
  · cases newest stored with
    | none => exact Int.le_max_right _ _
    | some time => exact Int.le_trans (Int.le_max_right _ _) (Int.le_max_left _ _)
  · intro n hmem
    obtain ⟨time, htime, hle⟩ := le_newest hmem
    rw [htime]
    exact Int.le_trans hle (Int.le_max_right _ _)

theorem mem_done_iff {C : Type} [DecidableEq C] (components : String → List C)
    {stored : List StoredNotice} {marks : List SeenMark} {now : ℤ} {n : StoredNotice} :
    n ∈ done components stored marks now ↔
      n ∈ stale stored now ∨ (n ∈ stored ∧ heard components marks n = true) := by
  have hat (i : ℕ) : (n, i) ∈ stored.zipIdx ↔ stored[i]? = some n := by
    simp [List.mem_zipIdx_iff_getElem?]
  simp only [done, stale, List.mem_map, List.mem_filter, Bool.or_eq_true, Prod.exists,
    exists_and_right, exists_eq_right, hat]
  rw [List.mem_iff_getElem? (l := stored)]
  constructor
  · rintro ⟨i, hi, hstale | hheard⟩
    · exact Or.inl ⟨i, hi, hstale⟩
    · exact Or.inr ⟨⟨i, hi⟩, hheard⟩
  · rintro (⟨i, hi, hstale⟩ | ⟨⟨i, hi⟩, hheard⟩)
    · exact ⟨i, hi, Or.inl hstale⟩
    · exact ⟨i, hi, Or.inr hheard⟩

theorem mem_of_mem_stale {stored : List StoredNotice} {now : ℤ} {n : StoredNotice}
    (h : n ∈ stale stored now) : n ∈ stored := by
  unfold stale at h
  obtain ⟨⟨n', i⟩, hmem, rfl⟩ := List.mem_map.mp h
  have hat := List.mem_zipIdx_iff_getElem?.mp (List.mem_of_mem_filter hmem)
  exact List.mem_of_getElem? hat

end Haruspex.CodeFolders

/-! Who hears of a change: every interleaving of turns that record, look and are saved, with the
clean-up of notices after each going on beside them. -/
namespace Haruspex.CodeFolders
open Runs
set_option autoImplicit false

/-! ## Sessions at work -/

/-- A clean-up, which reads the notices, then the saved sessions, and then deletes. -/
inductive Job where
  | begun (now : ℤ)
  | read (now : ℤ) (stored : List StoredNotice)
  | marked (now : ℤ) (stored : List StoredNotice) (marks : List SeenMark)

/-- The notices that a clean-up goes by. -/
def Job.stored : Job → List StoredNotice
  | .begun _ => []
  | .read _ stored => stored
  | .marked _ stored _ => stored

/-- A session's look at the notices, with the time it was given to pass next. -/
abbrev Look := String × ℤ

/-- A notice, with the looks before it and the sessions that were saved then. -/
structure Recorded where
  notice : StoredNotice
  before : List Look
  saved : List String
  deriving DecidableEq

structure World where
  inner : Inner
  db : Database
  jobs : List Job
  /-- The last look first. -/
  looks : List Look
  /-- Which session was told of which notice. -/
  told : List (String × StoredNotice)
  recorded : List Recorded
  /-- Dropped for their age, or past the newest. -/
  expired : List StoredNotice

inductive Step where
  | record (folder session title : String) (files : List String) (now : ℤ)
  | take (folder session : String) (since now : ℤ)
  | save (mark : SeenMark)
  | prune (k : ℕ)

namespace World

/-- An app that has just started. -/
def start (notices : List StoredNotice) (nextId : ℕ) : World :=
  ⟨Inner.default, ⟨notices, nextId, []⟩, [], [], [], [], []⟩

section

variable {C : Type} [DecidableEq C] (components : String → List C)

def record (w : World) (folder session title : String) (files : List String) (now : ℤ) : World :=
  if files = [] then w
  else
    let inner := w.inner.tickPast w.db.codeNotices now
    let n := w.db.newNotice folder session title files inner.clock
    { w with
      inner := inner
      db := w.db.insertCodeNotice n
      jobs := w.jobs ++ [.begun now]
      recorded := w.recorded ++ [⟨n, w.looks, w.db.sessions.map SeenMark.id⟩] }

def take (w : World) (folder session : String) (since now : ℤ) : World :=
  let inner := w.inner.look w.db.codeNotices now
  { w with
    inner := inner
    jobs := w.jobs ++ [.begun now]
    looks := (session, inner.clock) :: w.looks
    told := w.told ++ (news components w.db.codeNotices folder session since).map (Prod.mk session) }

/-- A clean-up goes on. -/
def prune (w : World) (k : ℕ) : World :=
  match w.jobs[k]? with
  | none => w
  | some (.begun now) => { w with jobs := w.jobs.set k (.read now w.db.codeNotices) }
  | some (.read now stored) => { w with jobs := w.jobs.set k (.marked now stored w.db.sessions) }
  | some (.marked now stored marks) =>
    { w with
      db := w.db.deleteCodeNotices ((done components stored marks now).map StoredNotice.id)
      jobs := w.jobs.eraseIdx k
      expired := w.expired ++ stale stored now }

def apply : Step → World → World
  | .record folder session title files now, w => w.record folder session title files now
  | .take folder session since now, w => w.take components folder session since now
  | .save mark, w => { w with db := w.db.saveSession mark }
  | .prune k, w => w.prune components k

/-! ## Calls without anything between -/

theorem eraseIdx_last (jobs : List Job) (job : Job) :
    (jobs ++ [job]).eraseIdx jobs.length = jobs := by
  rw [List.eraseIdx_append_of_length_le (Nat.le_refl _)]
  simp

/-- The last clean-up, when nothing comes between. -/
theorem run_prune {w : World} {jobs : List Job} {now : ℤ} (h : w.jobs = jobs ++ [.begun now]) :
    let w' := run (apply components) w
      [.prune jobs.length, .prune jobs.length, .prune jobs.length]
    w'.inner = w.inner ∧ w'.db = CodeFolders.prune components w.db now ∧ w'.jobs = jobs ∧
      w'.told = w.told ∧ w'.looks = w.looks := by
  simp [run, apply, prune, h, CodeFolders.prune, eraseIdx_last]

/-- A recording and its clean-up, when nothing comes between, are the whole call. -/
theorem record_eq (w : World) (folder session title : String) {files : List String}
    (hfiles : files ≠ []) (now : ℤ) :
    let w' := run (apply components) w [.record folder session title files now,
      .prune w.jobs.length, .prune w.jobs.length, .prune w.jobs.length]
    (w'.inner, w'.db) =
        CodeFolders.record components w.inner w.db folder session title files now ∧
      w'.jobs = w.jobs := by
  have hjobs : (w.record folder session title files now).jobs = w.jobs ++ [.begun now] := by
    simp [record, hfiles]
  obtain ⟨hinner, hdb, hrest, -, -⟩ := run_prune components hjobs
  refine ⟨?_, hrest⟩
  rw [run_cons, apply, hinner, hdb, record, if_neg hfiles, CodeFolders.record, if_neg hfiles]

/-- A look and its clean-up. -/
theorem takeNotices_eq (w : World) (folder session : String) (since now : ℤ) :
    let w' := run (apply components) w [.take folder session since now,
      .prune w.jobs.length, .prune w.jobs.length, .prune w.jobs.length]
    let taken := takeNotices components w.inner w.db folder session since now
    (w'.inner, w'.db) = taken.2 ∧ w'.jobs = w.jobs ∧
      w'.told = w.told ++ taken.1.1.map (Prod.mk session) ∧
      w'.looks = (session, taken.1.2) :: w.looks := by
  have hjobs : (w.take components folder session since now).jobs = w.jobs ++ [.begun now] := rfl
  obtain ⟨hinner, hdb, hrest, htold, hlooks⟩ := run_prune components hjobs
  refine ⟨?_, hrest, htold, hlooks⟩
  rw [run_cons, apply, hinner, hdb]
  rfl

end

end World

end Haruspex.CodeFolders
