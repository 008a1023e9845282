import Mathlib.Data.List.Basic
import Mathlib.Algebra.GroupWithZero.Nat

/-! The binary body of a folder sync: `encode_sync` (`sandbox_sync.rs`) and `decodeSyncBody`
(`sandbox/syncBody.ts`). -/
namespace Haruspex.Sandbox
set_option autoImplicit false

abbrev Bytes := List UInt8

/-! ## What a sync finds -/

structure SyncFile (Time : Type) where
  path : String
  absPath : String
  bytes : Bytes
  mtime : Time
  deriving DecidableEq

structure SyncSkipped where
  path : String
  reason : String
  deriving DecidableEq

structure SyncResult (Time : Type) where
  toSync : List (SyncFile Time)
  deleted : List String
  skipped : List SyncSkipped
  workdirAbs : String
  deriving DecidableEq

/-- A synced file as the header names it. -/
structure SyncFileHeader (Time : Type) where
  path : String
  absPath : String
  mtime : Time
  len : ℕ

structure SyncHeader (Time : Type) where
  toSync : List (SyncFileHeader Time)
  deleted : List String
  skipped : List SyncSkipped
  workdirAbs : String

/-- `serde_json::to_vec`, and `TextDecoder` with `JSON.parse`: a header that is written is read back. -/
structure HeaderJson (Time : Type) where
  toVec : SyncHeader Time → Bytes
  parse : Bytes → Option (SyncHeader Time)
  parse_toVec : ∀ header, parse (toVec header) = some header

variable {Time : Type}

/-! ## Encoding -/

/-- `n.to_le_bytes()` of a `u32`. -/
def toLeBytes (n : ℕ) : Bytes :=
  [UInt8.ofNat n, UInt8.ofNat (n / 256), UInt8.ofNat (n / 65536), UInt8.ofNat (n / 16777216)]

def fileHeader (f : SyncFile Time) : SyncFileHeader Time := ⟨f.path, f.absPath, f.mtime, f.bytes.length⟩

def syncHeader (r : SyncResult Time) : SyncHeader Time :=
  ⟨r.toSync.map fileHeader, r.deleted, r.skipped, r.workdirAbs⟩

def encodeSync (json : HeaderJson Time) (r : SyncResult Time) : Except String Bytes :=
  let header := json.toVec (syncHeader r)
  if header.length < 2 ^ 32 then
    .ok (toLeBytes header.length ++ header ++ r.toSync.flatMap SyncFile.bytes)
  else .error "sync header too large"

/-! ## Decoding -/

/-- `new DataView(body).getUint32(0, true)`. -/
def getUint32 : Bytes → Option ℕ
  | a :: b :: c :: d :: _ => some (a.toNat + 256 * b.toNat + 65536 * c.toNat + 16777216 * d.toNat)
  | _ => none

/-- `new Uint8Array(body, offset, len)`. -/
def view (body : Bytes) (offset len : ℕ) : Option Bytes :=
  if offset + len ≤ body.length then some ((body.drop offset).take len) else none

def viewFiles (body : Bytes) (offset : ℕ) : List (SyncFileHeader Time) → Option (List (SyncFile Time))
  | [] => some []
  | f :: fs => do
    let bytes ← view body offset f.len
    let files ← viewFiles body (offset + f.len) fs
    some (⟨f.path, f.absPath, bytes, f.mtime⟩ :: files)

def decodeSyncBody (json : HeaderJson Time) (body : Bytes) : Option (SyncResult Time) := do
  let headerLen ← getUint32 body
  let header ← json.parse (← view body 4 headerLen)
  let toSync ← viewFiles body (4 + headerLen) header.toSync
  some ⟨toSync, header.deleted, header.skipped, header.workdirAbs⟩

/-! ## The round trip -/

theorem length_toLeBytes (n : ℕ) : (toLeBytes n).length = 4 := rfl

theorem getUint32_toLeBytes {n : ℕ} (h : n < 2 ^ 32) (rest : Bytes) : getUint32 (toLeBytes n ++ rest) = some n := by
  simp only [toLeBytes, List.cons_append, List.nil_append, getUint32, UInt8.toNat_ofNat', Option.some.injEq]
  omega

theorem view_append (front bytes back : Bytes) :
    view (front ++ bytes ++ back) front.length bytes.length = some bytes := by
  have hle : front.length + bytes.length ≤ (front ++ bytes ++ back).length := by simp
  rw [view, if_pos hle, List.append_assoc, List.drop_left, List.take_left]

theorem viewFiles_append (front : Bytes) (files : List (SyncFile Time)) :
    viewFiles (front ++ files.flatMap SyncFile.bytes) front.length (files.map fileHeader) = some files := by
  induction files generalizing front with
  | nil => rfl
  | cons f files ih =>
    have hview := view_append front f.bytes (files.flatMap SyncFile.bytes)
    have hrest := ih (front ++ f.bytes)
    rw [List.length_append] at hrest
    rw [List.flatMap_cons, List.map_cons, viewFiles, ← List.append_assoc]
    have hlen : (fileHeader f).len = f.bytes.length := rfl
    rw [hlen, hview, hrest]
    rfl

/-- What is encoded is decoded. -/
theorem decodeSyncBody_encodeSync (json : HeaderJson Time) {r : SyncResult Time} {body : Bytes}
    (h : encodeSync json r = .ok body) : decodeSyncBody json body = some r := by
  unfold encodeSync at h
  dsimp only at h
  split at h
  · rename_i hlen
    cases h
    have huint := getUint32_toLeBytes hlen (json.toVec (syncHeader r) ++ r.toSync.flatMap SyncFile.bytes)
    have hheader := view_append (toLeBytes (json.toVec (syncHeader r)).length) (json.toVec (syncHeader r))
      (r.toSync.flatMap SyncFile.bytes)
    have hfiles := viewFiles_append (toLeBytes (json.toVec (syncHeader r)).length ++ json.toVec (syncHeader r))
      r.toSync
    rw [List.length_append, length_toLeBytes] at hfiles
    rw [length_toLeBytes] at hheader
    rw [← List.append_assoc] at huint
    have hmap : (syncHeader r).toSync = r.toSync.map fileHeader := rfl
    simp only [decodeSyncBody, huint, hheader, json.parse_toVec, hmap, hfiles, Option.bind_eq_bind,
      Option.bind_some]
    rfl
  · cases h

end Haruspex.Sandbox
