import Haruspex.Rust.Text

/-! The owner's devices, in memory and in their file (`owner/clients.rs`). -/
namespace Haruspex.Owner
open Rust
set_option autoImplicit false

/-! ## Devices -/

inductive Scope where
  | read
  | drive
  | approve
  | settings
  deriving DecidableEq

def Scope.all : List Scope := [.read, .drive, .approve, .settings]

/-- A device as Settings shows it. -/
structure OwnerClient where
  id : String
  name : String
  scopes : List Scope
  createdAt : ℤ
  lastSeen : Option ℤ
  deriving DecidableEq

structure Stored where
  id : String
  name : String
  scopes : List Scope
  createdAt : ℤ
  lastSeen : Option ℤ
  /-- Of the token, in hex. -/
  tokenHash : String
  deriving DecidableEq

def Stored.shown (c : Stored) : OwnerClient := ⟨c.id, c.name, c.scopes, c.createdAt, c.lastSeen⟩

structure File where
  version : ℕ
  clients : List Stored
  deriving DecidableEq

/-- In nanoseconds. -/
def seenSaveInterval : ℕ := 60 * 10 ^ 9

def tokenPrefix : String := "hsx_"

structure Inner where
  clients : List Stored
  lastSave : ℕ
  dirty : Bool

/-- The devices of a process, and the file if there is one. -/
structure Clients where
  inner : Inner
  file : Option File

/-! ## What a call finds outside -/

/-- What becomes of the file's two steps, with the system's error. -/
inductive Disk where
  | writes
  | writeFails (e : String)
  | renameFails (e : String)
  deriving DecidableEq

structure Env where
  /-- What the random number generator gives, if it works. -/
  tokenBytes : Option (List UInt8)
  idBytes : Option (List UInt8)
  nowSecs : ℤ
  instant : ℕ
  disk : Disk

/-- Where the file is, and the file it is first written to. -/
structure Location where
  path : String
  tmp : String

/-! ## Hashes -/

/-- Lower-case hex, two digits a byte. -/
def hexDigits (b : UInt8) : List Char :=
  [Nat.digitChar (b.toNat / 16), Nat.digitChar (b.toNat % 16)]

def hex (bytes : List UInt8) : String := String.ofList (bytes.flatMap hexDigits)

def token (bytes : List UInt8) : String := tokenPrefix ++ hex bytes

def trimmed (text : String) : String := String.ofList (trim text.toList)

/-- `token_matches` -/
def tokenMatches (expected provided : String) : Bool := expected ≠ "" && expected = provided

def randomFailed : String := "the system random number generator failed"

namespace Clients

variable (digest : String → List UInt8) (loc : Location)

/-- SHA-256, in hex. -/
def hash (text : String) : String := hex (digest text)

/-! ## The file -/

/-- The devices that a new process starts with. -/
def load (file : Option File) (instant : ℕ) : Clients :=
  ⟨⟨file.elim [] File.clients, instant, false⟩, file⟩

def save (s : Clients) (env : Env) : Except String Unit × Clients :=
  let inner := { s.inner with lastSave := env.instant, dirty := false }
  match env.disk with
  | .writeFails e => (.error (loc.tmp ++ ": " ++ e), { s with inner := inner })
  | .renameFails e => (.error (loc.path ++ ": " ++ e), { s with inner := inner })
  | .writes => (.ok (), ⟨inner, some ⟨1, inner.clients⟩⟩)

/-! ## Calls -/

/-- What is wrong with a new device, if anything. -/
def refusal (name : String) (scopes : List Scope) : Option String :=
  if (trimmed name).toList = [] then some "give the device a name"
  else if 60 < (trimmed name).toList.length then some "a device name is at most 60 characters"
  else if scopes = [] then some "a device needs at least one permission"
  else none

/-- A change of the devices and the save after it. -/
def saveWith {A : Type} (s : Clients) (clients : List Stored) (env : Env) (result : A) :
    Except String A × Clients :=
  match save loc { s with inner := { s.inner with clients := clients } } env with
  | (.error e, s) => (.error e, s)
  | (.ok _, s) => (.ok result, s)

def create (s : Clients) (name : String) (scopes : List Scope) (env : Env) :
    Except String (OwnerClient × String) × Clients :=
  match refusal name scopes with
  | some e => (.error e, s)
  | none =>
    match env.tokenBytes with
    | none => (.error randomFailed, s)
    | some tokenBytes =>
      match env.idBytes with
      | none => (.error randomFailed, s)
      | some idBytes =>
        let stored : Stored := {
          id := hex idBytes
          name := trimmed name
          scopes := Scope.all.filter (· ∈ scopes)
          createdAt := env.nowSecs
          lastSeen := none
          tokenHash := hash digest (token tokenBytes) }
        s.saveWith loc (s.inner.clients ++ [stored]) env (stored.shown, token tokenBytes)

/-- The first device with an id gets a new hash. -/
def rehash (id tokenHash : String) : List Stored → List Stored
  | [] => []
  | c :: clients =>
    if c.id = id then { c with tokenHash := tokenHash } :: clients
    else c :: rehash id tokenHash clients

def rotate (s : Clients) (id : String) (env : Env) : Except String (OwnerClient × String) × Clients :=
  match env.tokenBytes with
  | none => (.error randomFailed, s)
  | some tokenBytes =>
    match s.inner.clients.find? (fun c => c.id = id) with
    | none => (.error "no such device", s)
    | some c =>
      s.saveWith loc (rehash id (hash digest (token tokenBytes)) s.inner.clients) env
        (c.shown, token tokenBytes)

def revoke (s : Clients) (id : String) (env : Env) : Except String Bool × Clients :=
  let clients := s.inner.clients.filter (fun c => c.id ≠ id)
  if clients.length ≠ s.inner.clients.length then s.saveWith loc clients env true
  else (.ok false, s)

/-- The last device whose token a text is, by its place. -/
def lastMatch (presented : String) (clients : List Stored) : Option ℕ :=
  ((clients.zipIdx.filter (fun (c, _) => tokenMatches c.tokenHash presented)).getLast?).map Prod.snd

/-- The place of the device whose token a text carries. -/
def matching (clients : List Stored) (text : String) : Option ℕ :=
  if (stripPrefix (trimmed text) tokenPrefix).isSome then
    lastMatch (hash digest (trimmed text)) clients
  else none

def authenticate (s : Clients) (text : String) (env : Env) : Option OwnerClient × Clients :=
  match matching digest s.inner.clients text with
  | none => (none, s)
  | some i =>
    let clients := s.inner.clients.modify i (fun c => { c with lastSeen := some env.nowSecs })
    let s := { s with inner := { s.inner with clients := clients, dirty := true } }
    let s := if seenSaveInterval ≤ env.instant - s.inner.lastSave then (save loc s env).2 else s
    ((clients[i]?).map Stored.shown, s)

/-- What is not yet in the file, when the server stops. -/
def flush (s : Clients) (env : Env) : Clients :=
  if s.inner.dirty then (save loc s env).2 else s

end Clients

end Haruspex.Owner
