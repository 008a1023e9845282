import Mathlib.Data.List.Basic

/-! One file open in an editor (`editor/document.svelte.ts`), over a disk that answers late and that others
write to. -/
namespace Haruspex.Editor
set_option autoImplicit false

variable {Hash : Type} [DecidableEq Hash]

/-! ## The document -/

/-- A file as read: no content when it isn't on disk. -/
structure LoadedFile (Hash : Type) where
  content : Option String
  hash : Option Hash

inductive EditorSave (Hash : Type) where
  | saved (hash : Hash)
  | conflict (hash : Option Hash)

inductive DiskState where
  | same
  | changed
  | deleted
  | new
  deriving DecidableEq

structure EditorDocument (Hash : Type) where
  relPath : String
  /-- What is on disk, as last read or saved. -/
  baseline : String
  /-- What is in the editor. -/
  draft : String
  hash : Option Hash
  loaded : Bool
  failed : Bool
  error : String
  disk : DiskState
  conflict : Bool
  /-- The hash the disk reported last, for Keep mine. -/
  diskHash : Option Hash

namespace EditorDocument

def opened (relPath : String) : EditorDocument Hash :=
  ⟨relPath, "", "", none, false, false, "", .same, false, none⟩

variable (doc : EditorDocument Hash)

def dirty : Bool := doc.loaded ∧ doc.draft ≠ doc.baseline

def missing : Bool := doc.disk = .deleted ∨ doc.disk = .new

def take (file : LoadedFile Hash) : EditorDocument Hash :=
  { doc with
    hash := file.hash
    diskHash := file.hash
    baseline := file.content.getD ""
    draft := file.content.getD ""
    error := "" }

/-- `load`, once the file is read. -/
def loadAnswered (file : LoadedFile Hash) : EditorDocument Hash :=
  { doc.take file with
    disk := if file.content = none then .new else doc.disk
    loaded := true }

def loadFailed (e : String) : EditorDocument Hash :=
  { doc with
    error := "Could not open " ++ doc.relPath ++ ": " ++ e
    failed := true
    baseline := ""
    draft := ""
    loaded := true }

def edit (text : String) : EditorDocument Hash := { doc with draft := text }

/-- Whether `save` gets as far as writing. -/
def writes (force : Bool) : Bool := doc.loaded ∧ (doc.dirty ∨ doc.missing ∨ force)

/-- `save`, once the content is written, or was refused. -/
def saveAnswered (content : String) : EditorSave Hash → EditorDocument Hash
  | .conflict hash => { doc with diskHash := hash, conflict := true }
  | .saved hash =>
    { doc with baseline := content, hash := some hash, disk := .same, conflict := false, error := "" }

def saveFailed (e : String) : EditorDocument Hash :=
  { doc with error := "Could not save " ++ doc.relPath ++ ": " ++ e }

/-- Whether a notice says anything new. -/
def heeds (hash : Option Hash) : Bool :=
  doc.loaded ∧ doc.failed = false ∧ ¬ (hash = doc.hash ∧ doc.missing = false)

/-- `diskChanged`, up to the read it may begin, with the draft it then begins from. -/
def diskChanged (hash : Option Hash) : EditorDocument Hash × Option String :=
  if doc.heeds hash then
    if hash = none then ({ doc with diskHash := hash, hash := none, disk := .deleted }, none)
    else if doc.dirty then ({ doc with diskHash := hash, disk := .changed }, none)
    else ({ doc with diskHash := hash }, some doc.draft)
  else (doc, none)

/-- `diskChanged`, once the file is read. -/
def silentAnswered (before : String) (file : LoadedFile Hash) : EditorDocument Hash :=
  if doc.draft ≠ before then
    { doc with
      diskHash := file.hash
      disk := if file.content = none then .deleted else .changed
      hash := if file.content = none then none else doc.hash }
  else { doc.take file with disk := if file.content = none then .deleted else .same }

def reloadAnswered (file : LoadedFile Hash) : EditorDocument Hash :=
  { doc.take file with
    disk := if file.content = none then .deleted else .same
    conflict := false
    error := "" }

def reloadFailed (e : String) : EditorDocument Hash :=
  { doc with error := "Could not reload " ++ doc.relPath ++ ": " ++ e }

def keepMine : EditorDocument Hash :=
  { doc with
    hash := doc.diskHash
    disk := if doc.diskHash = none then .deleted else .same }

end EditorDocument

/-! ## Requests -/

/-- What a read is for. A silent reload knows the draft it began from; whether the document has been clean
since then is the observer's note. -/
inductive Purpose where
  | load
  | silent (before : String) (clean : Bool)
  | reload

/-- A request, and what it came to once the disk has seen it. A write carries the observer's note of what
the draft was loaded or saved from and of the version the user chose to replace. -/
inductive Request (Hash : Type) where
  | read (purpose : Purpose) (result : Option (LoadedFile Hash))
  | write (content : String) (expected : Option Hash) (force : Bool) (origin : String)
      (chosen : Option Hash) (result : Option (EditorSave Hash))

def Request.done : Request Hash → Bool
  | .read _ result => result.isSome
  | .write _ _ _ _ _ result => result.isSome

/-- A document that is dirty now has not been clean since any read in flight began. -/
def Request.watch (dirty : Bool) : Request Hash → Request Hash
  | .read (.silent before clean) result => .read (.silent before (clean && !dirty)) result
  | request => request

/-- The effect of a request on the disk, and what it comes to. -/
def Request.perform (digest : String → Hash) (file : Option String) :
    Request Hash → Option String × Request Hash
  | .read purpose none => (file, .read purpose (some ⟨file, file.map digest⟩))
  | .write content expected force origin chosen none =>
    if force = false ∧ file.map digest ≠ expected then
      (file, .write content expected force origin chosen (some (.conflict (file.map digest))))
    else (some content, .write content expected force origin chosen (some (.saved (digest content))))
  | request => (file, request)

/-! ## The world -/

/-- The document, the disk, and what is under way between them. `typed` says that the draft was last set by
typing, `told` is the version the user last saw or was told about, and `chosen` the version they chose to
replace since the draft was last loaded or saved. -/
structure World (Hash : Type) where
  doc : EditorDocument Hash
  file : Option String
  requests : List (Request Hash)
  notices : List (Option Hash)
  typed : Bool
  told : Option Hash
  chosen : Option Hash

inductive Step where
  | edit (text : String)
  | save (force : Bool)
  | reload
  | keepMine
  /-- Another program writes or deletes the file. -/
  | change (file : Option String)
  /-- A notice reaches the document. -/
  | deliver (k : ℕ)
  /-- The disk sees a request. -/
  | perform (i : ℕ)
  /-- The answer to a request reaches the document. -/
  | answer (i : ℕ)
  | fail (i : ℕ) (e : String)

namespace World

/-- A document just opened: its first read is under way. -/
def start (relPath : String) (file : Option String) : World Hash :=
  ⟨.opened relPath, file, [.read .load none], [], false, none, none⟩

variable (w : World Hash)

/-- The document now shows a file as read. -/
def shows (doc : EditorDocument Hash) (file : LoadedFile Hash) : World Hash :=
  { w with doc := doc, typed := false, told := file.hash, chosen := none }

def answered : Request Hash → World Hash
  | .read .load (some file) => w.shows (w.doc.loadAnswered file) file
  | .read .reload (some file) => w.shows (w.doc.reloadAnswered file) file
  | .read (.silent before _) (some file) =>
    if w.doc.draft ≠ before then
      { w with doc := w.doc.silentAnswered before file, told := file.hash }
    else w.shows (w.doc.silentAnswered before file) file
  | .write content _ _ _ _ (some (.saved hash)) =>
    { w with doc := w.doc.saveAnswered content (.saved hash), chosen := none }
  | .write content _ _ _ _ (some (.conflict hash)) =>
    { w with doc := w.doc.saveAnswered content (.conflict hash), told := hash }
  | _ => w

def failed (e : String) : Request Hash → World Hash
  | .read .load _ => { w with doc := w.doc.loadFailed e }
  | .read _ _ => { w with doc := w.doc.reloadFailed e }
  | .write _ _ _ _ _ _ => { w with doc := w.doc.saveFailed e }

def heard (hash : Option Hash) : World Hash :=
  let (doc, read) := w.doc.diskChanged hash
  match read with
  | some before => { w with doc := doc, requests := w.requests ++ [.read (.silent before true) none] }
  | none => { w with doc := doc, told := if w.doc.heeds hash then hash else w.told }

/-- One step, before the observer looks. -/
def act (digest : String → Hash) : Step → World Hash
  | .edit text =>
    { w with doc := w.doc.edit text, typed := w.typed || decide (text ≠ w.doc.draft) }
  | .save force =>
    if w.doc.writes force then
      { w with requests := w.requests ++
          [.write w.doc.draft w.doc.hash force w.doc.baseline w.chosen none] }
    else w
  | .reload => { w with requests := w.requests ++ [.read .reload none] }
  | .keepMine => { w with doc := w.doc.keepMine, chosen := w.told }
  | .change file => { w with file := file, notices := w.notices ++ [file.map digest] }
  | .deliver k =>
    match w.notices[k]? with
    | some hash => { w with notices := w.notices.eraseIdx k }.heard hash
    | none => w
  | .perform i =>
    match w.requests[i]? with
    | some request =>
      { w with
        file := (request.perform digest w.file).1
        requests := w.requests.set i (request.perform digest w.file).2 }
    | none => w
  | .answer i =>
    match w.requests[i]? with
    | some request =>
      if request.done then { w with requests := w.requests.eraseIdx i }.answered request else w
    | none => w
  | .fail i e =>
    match w.requests[i]? with
    | some request =>
      if request.done then w else { w with requests := w.requests.eraseIdx i }.failed e request
    | none => w

def watched : World Hash := { w with requests := w.requests.map (Request.watch w.doc.dirty) }

def apply (digest : String → Hash) (step : Step) : World Hash := (w.act digest step).watched

def run (digest : String → Hash) (steps : List Step) : World Hash :=
  steps.foldl (fun w step => w.apply digest step) w

end World

/-! ## What is asked of it -/

/-- A step replaces no content on disk by a save without force but what the draft was loaded or saved from,
or the version the user chose to replace. -/
def ReplacesKnown (digest : String → Hash) (w : World Hash) (step : Step) : Prop :=
  ∀ i content expected origin chosen old, step = .perform i →
    w.requests[i]? = some (.write content expected false origin chosen none) →
    w.file = some old → (w.apply digest step).file ≠ some old → old = origin ∨ chosen = some (digest old)

/-- Typed text leaves the draft by typing, by a reload the user asked for, or by a silent reload of a
document that was clean since it began. -/
def KeepsTyping (digest : String → Hash) (w : World Hash) (step : Step) : Prop :=
  w.typed = true → (w.apply digest step).doc.draft ≠ w.doc.draft →
    (∃ text, step = .edit text) ∨
      ∃ i result, step = .answer i ∧
        (w.requests[i]? = some (.read .reload result) ∨
          ∃ before, w.requests[i]? = some (.read (.silent before true) result))

/-- Once all is answered and delivered, a document that is not dirty and says nothing of the disk holds the
text on it. -/
def Settled (w : World Hash) : Prop :=
  w.requests = [] → w.notices = [] → w.doc.dirty = false → w.doc.disk = .same →
    w.file = some w.doc.draft

/-- What is asked of a state and of every step out of it. -/
structure Safe (digest : String → Hash) (w : World Hash) : Prop where
  replaces : ∀ step, ReplacesKnown digest w step
  typing : ∀ step, KeepsTyping digest w step
  settled : Settled w

end Haruspex.Editor
