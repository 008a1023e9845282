import Haruspex.Sandbox.SyncRuns

/-! Python sees the folder: after syncs that nothing comes between, and where a sync that meets a cap, or a
worker that is respawned, leaves it with other files. -/
namespace Haruspex.Sandbox
set_option autoImplicit false

/-! ## A header as bytes -/

/-- A way to write values in front of other bytes, and to read them back. -/
structure Code (α : Type) where
  write : α → Bytes
  read : Bytes → Option (α × Bytes)
  read_write : ∀ a rest, read (write a ++ rest) = some (a, rest)

namespace Code
variable {α β : Type}

def readNat : Bytes → Option (ℕ × Bytes)
  | [] => none
  | b :: bytes => if b = 0 then some (0, bytes) else (readNat bytes).map fun (n, rest) => (n + 1, rest)

/-- A number in unary. -/
def nat : Code ℕ where
  write n := List.replicate n 1 ++ [0]
  read := readNat
  read_write n rest := by
    induction n with
    | zero => rfl
    | succ n ih =>
      have hone : (1 : UInt8) ≠ 0 := by decide
      rw [List.replicate_succ, List.cons_append, List.cons_append, readNat, if_neg hone, ih]
      rfl

def pair (first : Code α) (second : Code β) : Code (α × β) where
  write v := first.write v.1 ++ second.write v.2
  read bytes := do
    let (a, bytes) ← first.read bytes
    let (b, bytes) ← second.read bytes
    some ((a, b), bytes)
  read_write v rest := by
    rw [List.append_assoc, first.read_write]
    simp only [Option.bind_eq_bind, Option.bind_some, second.read_write]

def readMany (code : Code α) : ℕ → Bytes → Option (List α × Bytes)
  | 0, bytes => some ([], bytes)
  | n + 1, bytes => do
    let (a, bytes) ← code.read bytes
    let (as, bytes) ← readMany code n bytes
    some (a :: as, bytes)

/-- A list after its length. -/
def list (code : Code α) : Code (List α) where
  write as := nat.write as.length ++ as.flatMap code.write
  read bytes := do
    let (n, bytes) ← nat.read bytes
    readMany code n bytes
  read_write as rest := by
    rw [List.append_assoc, nat.read_write]
    simp only [Option.bind_eq_bind, Option.bind_some]
    induction as with
    | nil => rfl
    | cons a as ih =>
      simp only [List.length_cons, List.flatMap_cons, List.append_assoc, readMany, code.read_write,
        Option.bind_eq_bind, Option.bind_some, ih]

/-- A value by one that it can be got back from. -/
def via (code : Code β) (f : α → β) (g : β → α) (h : ∀ a, g (f a) = a) : Code α where
  write a := code.write (f a)
  read bytes := (code.read bytes).map fun (b, rest) => (g b, rest)
  read_write a rest := by
    rw [code.read_write, Option.map_some]
    exact congrArg (fun a => some (a, rest)) (h a)

def char : Code Char where
  write c := toLeBytes c.toNat
  read bytes := (getUint32 bytes).map fun n => (Char.ofNat n, bytes.drop 4)
  read_write c rest := by
    have hlt : c.toNat < 2 ^ 32 := c.val.toNat_lt
    rw [getUint32_toLeBytes hlt, Option.map_some, Char.ofNat_toNat]
    rfl

def string : Code String := (list char).via String.toList String.ofList (fun _ => String.ofList_toList)

def fileHeader : Code (SyncFileHeader ℕ) :=
  (pair (pair string string) (pair nat nat)).via (fun f => ((f.path, f.absPath), (f.mtime, f.len)))
    (fun v => ⟨v.1.1, v.1.2, v.2.1, v.2.2⟩) (fun _ => rfl)

def skipped : Code SyncSkipped :=
  (pair string string).via (fun s => (s.path, s.reason)) (fun v => ⟨v.1, v.2⟩) (fun _ => rfl)

def header : Code (SyncHeader ℕ) :=
  (pair (pair (list fileHeader) (list string)) (pair (list skipped) string)).via
    (fun h => ((h.toSync, h.deleted), (h.skipped, h.workdirAbs)))
    (fun v => ⟨v.1.1, v.1.2, v.2.1, v.2.2⟩) (fun _ => rfl)

end Code

/-- Headers with times in whole milliseconds. -/
def plainHeaders : HeaderJson ℕ where
  toVec := Code.header.write
  parse bytes := (Code.header.read bytes).map Prod.fst
  parse_toVec header := by
    have hread := Code.header.read_write header []
    rw [List.append_nil] at hread
    rw [hread]
    rfl

def milliseconds : Clock ℕ where
  near a b := decide (a = b)
  near_self _ := decide_eq_true rfl

/-! ## Runs with one table -/

/-- A folder of one table. -/
def tableFolder (bytes : Bytes) (mtime : ℕ) : Folder ℕ :=
  ⟨"/w", [⟨"a.csv", "/w/a.csv", bytes, mtime⟩], List.nodup_singleton _⟩

/-- A table that is synced, and a worker that is respawned while the next sync is read. -/
def respawnedEarly : List (Event ℕ) := round ++ [.request, .respawn, .answer 0 true]

/-- A table that is synced, and then grows. -/
def grown : List (Event ℕ) := round ++ [.change (tableFolder [1, 2, 3] 1), .request, .answer 0 true]

/-- What a sync that is posted says of a folder and of what it skips. -/
def Posted.outline (sync : Posted ℕ) : List (SyncFile ℕ) × List String :=
  (sync.folder.files, sync.result.skipped.map SyncSkipped.path)

/-- Versions of the table. -/
theorem stamped_of_table {folders : List (Folder ℕ)} {bytes : ℕ → Bytes}
    (h : ∀ folder ∈ folders, ∃ t, folder = tableFolder (bytes t) t) :
    Stamped milliseconds (versionsOf folders) := by
  have hversion : ∀ p t b, versionsOf folders p t b → b = bytes t := by
    intro p t b hversion
    obtain ⟨folder, hfolder, f, hf, -, rfl, rfl⟩ := hversion
    obtain ⟨t, rfl⟩ := h folder hfolder
    obtain rfl := List.mem_singleton.mp hf
    rfl
  intro p t t' b b' hb hb' hnear
  have ht : t = t' := of_decide_eq_true hnear
  rw [hversion p t b hb, hversion p t' b' hb', ht]

/-! ## The folder in the worker -/

/-- What is to hold of every run, whatever comes between the steps of a sync. -/
def AlwaysSeen (json : HeaderJson ℕ) (clock : Clock ℕ) (caps : Caps) : Prop :=
  ∀ (first : Folder ℕ) (front : List (Event ℕ)) (sync : Posted ℕ) (rest : List (Posted ℕ)),
    Stamped clock (versionsOf (foldersOf first front)) → (run json clock caps (start first) front).posted = sync :: rest →
    Sees sync.folder sync.result.skipped (run json clock caps (start first) (front ++ [.handle .acked])).files

theorem not_alwaysSeen {json : HeaderJson ℕ} {clock : Clock ℕ} {caps : Caps} {first : Folder ℕ}
    {front : List (Event ℕ)} {files : List (SyncFile ℕ)} {skipped : List String} (f : SyncFile ℕ)
    (hstamped : Stamped clock (versionsOf (foldersOf first front)))
    (hposted : (run json clock caps (start first) front).posted.map Posted.outline = [(files, skipped)])
    (hf : f ∈ files)
    (hnot : (run json clock caps (start first) (front ++ [.handle .acked])).files f.path ≠ some f.bytes)
    (hrest : f.path ∉ skipped ∨
      (run json clock caps (start first) (front ++ [.handle .acked])).files f.path ≠ none) :
    ¬ AlwaysSeen json clock caps := by
  intro h
  obtain ⟨sync, hsync, houtline⟩ := List.map_eq_singleton_iff.mp hposted
  obtain ⟨rfl, rfl⟩ := Prod.mk.inj houtline
  have hsees := h first front sync [] hstamped hsync
  by_cases hskipped : f.path ∈ sync.result.skipped.map SyncSkipped.path
  · obtain hgone | hsame := hsees.stale f hf hskipped
    · obtain hother | hother := hrest
      · exact hother hskipped
      · exact hother hgone
    · exact hnot hsame
  · exact hnot (hsees.current f hf hskipped)

end Haruspex.Sandbox
