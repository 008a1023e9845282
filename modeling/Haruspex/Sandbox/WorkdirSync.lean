import Haruspex.Sandbox.SyncBody
import Mathlib.Data.List.AList
import Mathlib.Logic.Function.Basic

/-! The folder of a chat in the Python sandbox: `sync_workdir` (`sandbox_sync.rs`), and what the worker manager
(`sandbox/workerManager.ts`) knows of the files in its worker. -/
namespace Haruspex.Sandbox
set_option autoImplicit false

variable {Time : Type}

/-! ## What is in the folder -/

/-- The files of a folder as `walk_dir` lists them. -/
structure Folder (Time : Type) where
  root : String
  files : List (SyncFile Time)
  nodup : (files.map SyncFile.path).Nodup
  deriving DecidableEq

/-- Modification times, and whether two are less than a millisecond apart. -/
structure Clock (Time : Type) where
  near : Time → Time → Bool
  near_self : ∀ t, near t t = true

structure Caps where
  perFile : ℕ
  perRun : ℕ

/-- `SYNC_PER_FILE_CAP_BYTES` and `SYNC_PER_RUN_CAP_BYTES`. -/
def managerCaps : Caps := ⟨50 * 1024 * 1024, 200 * 1024 * 1024⟩

/-- Paths and the times they were synced with. -/
abbrev Known (Time : Type) := AList (fun _ : String => Time)

instance [DecidableEq Time] : DecidableEq (Known Time) := fun known known' =>
  decidable_of_iff (known.entries = known'.entries) AList.ext_iff.symm

/-! ## `sync_workdir` -/

/-- Whether a file has been synced as it is. -/
def unchanged (clock : Clock Time) (known : Known Time) (f : SyncFile Time) : Bool :=
  match known.lookup f.path with
  | some mtime => clock.near mtime f.mtime
  | none => false

structure Scan (Time : Type) where
  toSync : List (SyncFile Time)
  skipped : List SyncSkipped
  totalBytes : ℕ

def overFileCap (caps : Caps) (f : SyncFile Time) : SyncSkipped :=
  ⟨f.path, s!"{f.bytes.length} bytes > {caps.perFile} byte per-file sync limit; use fs_read_text / " ++
    "fs_read_pdf / fs_read_xlsx etc. for this file"⟩

def overRunCap (caps : Caps) (f : SyncFile Time) : SyncSkipped :=
  ⟨f.path, s!"would exceed {caps.perRun} byte per-run sync budget; will retry next run, or use fs_read_* " ++
    "directly if you need it now"⟩

def scanFile (clock : Clock Time) (caps : Caps) (known : Known Time) (scan : Scan Time) (f : SyncFile Time) :
    Scan Time :=
  if caps.perFile < f.bytes.length then { scan with skipped := scan.skipped ++ [overFileCap caps f] }
  else if unchanged clock known f then scan
  else if caps.perRun < scan.totalBytes + f.bytes.length then
    { scan with skipped := scan.skipped ++ [overRunCap caps f] }
  else { scan with toSync := scan.toSync ++ [f], totalBytes := scan.totalBytes + f.bytes.length }

def syncWorkdir (clock : Clock Time) (caps : Caps) (folder : Folder Time) (known : Known Time) :
    SyncResult Time :=
  let scan := folder.files.foldl (scanFile clock caps known) ⟨[], [], 0⟩
  ⟨scan.toSync, known.keys.filter (fun p => p ∉ folder.files.map SyncFile.path), scan.skipped, folder.root⟩

/-! ## The worker and its manager -/

def assign {V : Type} (map : String → Option V) (write : String × V) : String → Option V :=
  Function.update map write.1 (some write.2)

def unassign {V : Type} (map : String → Option V) (p : String) : String → Option V := Function.update map p none

/-- A map after some writes, and some removals after them. -/
def overwrite {V : Type} (map : String → Option V) (writes : List (String × V)) (removed : List String) :
    String → Option V := removed.foldl unassign (writes.foldl assign map)

/-- What the worker does with a sync. -/
def SyncResult.write (r : SyncResult Time) (files : String → Option Bytes) : String → Option Bytes :=
  overwrite files (r.toSync.map (fun f => (f.path, f.bytes))) r.deleted

/-- What the manager notes once a sync is acknowledged. -/
def SyncResult.note (r : SyncResult Time) (synced : Known Time) : Known Time :=
  r.deleted.foldl (fun m p => m.erase p) (r.toSync.foldl (fun m f => m.insert f.path f.mtime) synced)

/-- A sync on its way to the worker, with the folder that it was read from. -/
structure Posted (Time : Type) where
  folder : Folder Time
  result : SyncResult Time
  deriving DecidableEq

structure State (Time : Type) where
  folder : Folder Time
  /-- The files of the worker. -/
  files : String → Option Bytes
  /-- What is posted to the worker, and not acknowledged. -/
  posted : List (Posted Time)
  syncedFiles : Known Time
  /-- The `knownFiles` of the syncs that wait for their answer. -/
  requests : List (Known Time)

/-- What the worker makes of a sync: it acknowledges it, refuses it before or fails after writing. -/
inductive Outcome where
  | acked
  | refused
  | failed

inductive Event (Time : Type) where
  | change (folder : Folder Time)
  | request
  | answer (k : ℕ) (readable : Bool)
  | handle (outcome : Outcome)
  | respawn

/-- A sync is read, sent as its body, and posted, unless it says nothing. -/
def answer (json : HeaderJson Time) (clock : Clock Time) (caps : Caps) (s : State Time) (known : Known Time) :
    State Time :=
  match encodeSync json (syncWorkdir clock caps s.folder known) with
  | .error _ => s
  | .ok body =>
    match decodeSyncBody json body with
    | none => s
    | some result =>
      if result.toSync.isEmpty ∧ result.deleted.isEmpty ∧ result.skipped.isEmpty ∧ s.syncedFiles.keys ≠ [] then s
      else { s with posted := s.posted ++ [⟨s.folder, result⟩] }

def step (json : HeaderJson Time) (clock : Clock Time) (caps : Caps) (s : State Time) : Event Time → State Time
  | .change folder => { s with folder := folder }
  | .request => { s with requests := s.requests ++ [s.syncedFiles] }
  | .answer k readable =>
    match s.requests[k]? with
    | none => s
    | some known =>
      let s := { s with requests := s.requests.eraseIdx k }
      if readable then answer json clock caps s known else s
  | .handle outcome =>
    match s.posted with
    | [] => s
    | sync :: posted =>
      match outcome with
      | .acked =>
        { s with
          files := sync.result.write s.files
          syncedFiles := sync.result.note s.syncedFiles
          posted := posted }
      | .refused => { s with posted := posted }
      | .failed => { s with files := sync.result.write s.files, posted := posted }
  | .respawn => { s with files := fun _ => none, posted := [], syncedFiles := ∅ }

/-- A new worker, of which nothing is known. -/
def start (folder : Folder Time) : State Time := ⟨folder, fun _ => none, [], ∅, []⟩

def run (json : HeaderJson Time) (clock : Clock Time) (caps : Caps) (s : State Time) (events : List (Event Time)) :
    State Time := events.foldl (step json clock caps) s

/-! ## Maps -/

section overwrite
variable {V : Type} {map : String → Option V} {writes : List (String × V)} {removed : List String} {p : String}

theorem foldl_update_of_not_mem (h : p ∉ writes.map Prod.fst) :
    writes.foldl assign map p = map p := by
  induction writes generalizing map with
  | nil => rfl
  | cons w writes ih =>
    simp only [List.map_cons, List.mem_cons, not_or] at h
    rw [List.foldl_cons, ih h.2, assign, Function.update_of_ne h.1]

theorem foldl_update_of_mem (hnodup : (writes.map Prod.fst).Nodup) {v : V} (h : (p, v) ∈ writes) :
    writes.foldl assign map p = some v := by
  induction writes generalizing map with
  | nil => cases h
  | cons w writes ih =>
    rw [List.map_cons, List.nodup_cons] at hnodup
    rw [List.foldl_cons]
    obtain rfl | h := List.mem_cons.mp h
    · rw [foldl_update_of_not_mem hnodup.1, assign, Function.update_self]
    · exact ih hnodup.2 h

theorem foldl_remove (map : String → Option V) :
    removed.foldl unassign map p = if p ∈ removed then none else map p := by
  induction removed generalizing map with
  | nil => rfl
  | cons q removed ih =>
    rw [List.foldl_cons, ih]
    by_cases hq : p = q
    · simp [hq, unassign]
    · simp [hq, unassign]

theorem overwrite_removed (h : p ∈ removed) : overwrite map writes removed p = none := by
  rw [overwrite, foldl_remove, if_pos h]

theorem overwrite_written (hnodup : (writes.map Prod.fst).Nodup) {v : V} (h : (p, v) ∈ writes)
    (hkept : p ∉ removed) : overwrite map writes removed p = some v := by
  rw [overwrite, foldl_remove, if_neg hkept, foldl_update_of_mem hnodup h]

theorem overwrite_kept (h : p ∉ writes.map Prod.fst) (hkept : p ∉ removed) :
    overwrite map writes removed p = map p := by
  rw [overwrite, foldl_remove, if_neg hkept, foldl_update_of_not_mem h]

end overwrite

/-- The times that are noted, as a map. -/
theorem lookup_note (r : SyncResult Time) (synced : Known Time) (p : String) :
    (r.note synced).lookup p =
      overwrite (fun q => synced.lookup q) (r.toSync.map (fun f => (f.path, f.mtime))) r.deleted p := by
  have hinsert : ∀ (files : List (SyncFile Time)) (m : Known Time),
      (fun q => (files.foldl (fun m f => m.insert f.path f.mtime) m).lookup q) =
        (files.map (fun f => (f.path, f.mtime))).foldl assign (fun q => m.lookup q) := by
    intro files
    induction files with
    | nil => exact fun m => rfl
    | cons f files ih =>
      intro m
      rw [List.foldl_cons, ih, List.map_cons, List.foldl_cons]
      congr 1
      funext q
      by_cases hq : q = f.path
      · rw [hq, AList.lookup_insert, assign, Function.update_self]
      · rw [AList.lookup_insert_ne hq, assign, Function.update_of_ne hq]
  have herase : ∀ (removed : List String) (m : Known Time),
      (fun q => (removed.foldl (fun m p => m.erase p) m).lookup q) =
        removed.foldl unassign (fun q => m.lookup q) := by
    intro removed
    induction removed with
    | nil => exact fun m => rfl
    | cons x removed ih =>
      intro m
      rw [List.foldl_cons, ih, List.foldl_cons]
      congr 1
      funext q
      by_cases hq : q = x
      · rw [hq, AList.lookup_erase, unassign, Function.update_self]
      · rw [AList.lookup_erase_ne hq, unassign, Function.update_of_ne hq]
  have hall := herase r.deleted (r.toSync.foldl (fun m f => m.insert f.path f.mtime) synced)
  rw [hinsert] at hall
  exact congrFun hall p

end Haruspex.Sandbox
