import Mathlib.Data.List.Infix
import Mathlib.Data.Nat.Notation

/-! A file system with directories, files and symbolic links, as its system calls see it. A place is the
list of names from the root to it. -/
namespace Haruspex.Files
set_option autoImplicit false

/-! ## Nodes -/

/-- A path as it is written. What matters of a `.` or a slash at its end is that it asks for a directory
there, and of a `.` before a name nothing, since a name is looked up in a directory anyway. -/
structure RawPath where
  absolute : Bool
  names : List String
  trailing : Bool
  deriving DecidableEq

/-- The names of a path for the walk, `.` standing for the directory that is asked for. -/
def RawPath.segs (p : RawPath) : List String := p.names ++ if p.trailing then ["."] else []

inductive Node where
  | dir
  | file
  | symlink (target : RawPath)
  deriving DecidableEq

inductive Errno where
  | notFound
  | notDirectory
  | loop
  | exists
  | isDirectory
  deriving DecidableEq

structure FileSystem where
  node : List String → Option Node
  /-- How many links a walk follows. -/
  maxLinks : ℕ
  /-- The working directory of the process. -/
  cwd : List String
  root_dir : node [] = some .dir
  parent_dir : ∀ at' name, (node (at' ++ [name])).isSome = true → node at' = some .dir
  real_name : ∀ at' name, (node (at' ++ [name])).isSome = true → name ≠ "." ∧ name ≠ ".."
  cwd_dir : node cwd = some .dir

namespace FileSystem

variable (fs : FileSystem)

/-! ## Walking a path -/

/-- Where a path starts. -/
def start (p : RawPath) (at' : List String) : List String := if p.absolute then [] else at'

/-- One name after another. A link is left to `follow`. The last name may be missing if it is to be
created. -/
def walkWith (create : Bool) (follow : List String → List String → Except Errno (List String)) :
    List String → List String → Except Errno (List String)
  | at', [] => .ok at'
  | at', name :: rest =>
    if fs.node at' ≠ some .dir then .error .notDirectory
    else if name = "." then walkWith create follow at' rest
    else if name = ".." then walkWith create follow at'.dropLast rest
    else
      match fs.node (at' ++ [name]) with
      | none => if create ∧ rest = [] then .ok (at' ++ [name]) else .error .notFound
      | some (.symlink target) => follow (start target at') (target.segs ++ rest)
      | some _ => walkWith create follow (at' ++ [name]) rest

/-- With so many links to follow, at most. -/
def walk (create : Bool) : ℕ → List String → List String → Except Errno (List String)
  | 0 => fs.walkWith create (fun _ _ => .error .loop)
  | links + 1 => fs.walkWith create (walk create links)

/-- Where a path leads that there must be. -/
def resolve (p : RawPath) : Except Errno (List String) :=
  fs.walk false fs.maxLinks (start p fs.cwd) p.segs

/-- `Path::exists` -/
def pathExists (p : RawPath) : Bool := (fs.resolve p).toOption.isSome

/-- An absolute path of plain names. -/
def plain (names : List String) : RawPath := ⟨true, names, false⟩

/-! ## Making things -/

/-- A directory is added where nothing was. -/
def insertDir (at' : List String) (name : String) (hdir : fs.node at' = some .dir)
    (hname : name ≠ "." ∧ name ≠ "..") (hfree : fs.node (at' ++ [name]) = none) : FileSystem where
  node p := if p = at' ++ [name] then some .dir else fs.node p
  maxLinks := fs.maxLinks
  cwd := fs.cwd
  root_dir := by simp [fs.root_dir]
  parent_dir p n h := by
    split at h
    · rename_i hself
      obtain ⟨rfl, -⟩ := List.append_inj' hself rfl
      rw [if_neg (by simp)]
      exact hdir
    · have hparent := fs.parent_dir p n h
      split
      · rfl
      · exact hparent
  real_name p n h := by
    split at h
    · rename_i hself
      obtain ⟨-, hlast⟩ := List.append_inj' hself rfl
      obtain rfl := List.singleton_inj.mp hlast
      exact hname
    · exact fs.real_name p n h
  cwd_dir := by
    split
    · rfl
    · exact fs.cwd_dir

/-- `mkdir(2)` of a name at a path. -/
def mkdir (parent : List String) (name : String) : Except Errno FileSystem :=
  match fs.resolve (plain parent) with
  | .error e => .error e
  | .ok at' =>
    if hdir : fs.node at' = some .dir then
      if hname : name ≠ "." ∧ name ≠ ".." then
        if hfree : fs.node (at' ++ [name]) = none then .ok (fs.insertDir at' name hdir hname hfree)
        else .error .exists
      else .error .exists
    else .error .notDirectory

/-- `Path::is_dir` -/
def isDir (p : RawPath) : Bool :=
  match fs.resolve p with
  | .ok at' => fs.node at' = some .dir
  | .error _ => false

/-- What to make of `mkdir` where there may be a directory. -/
def orIsDir (p : RawPath) (made : Except Errno FileSystem) : FileSystem × Except Errno Unit :=
  match made with
  | .ok fs' => (fs', .ok ())
  | .error e => (fs, if fs.isDir p then .ok () else .error e)

/-- `create_dir_all`, with the names last to first. -/
def createDirAll (fs : FileSystem) : List String → FileSystem × Except Errno Unit
  | [] => (fs, .ok ())
  | name :: parents =>
    let path := plain (name :: parents).reverse
    match fs.mkdir parents.reverse name with
    | .error .notFound =>
      match createDirAll fs parents with
      | (fs', .error e) => (fs', .error e)
      | (fs', .ok ()) => fs'.orIsDir path (fs'.mkdir parents.reverse name)
    | made => fs.orIsDir path made

/-- `open(2)` of a file to write, made if it is missing: the place that is written. -/
def openFile (p : RawPath) : Except Errno (List String) :=
  match fs.walk true fs.maxLinks (start p fs.cwd) p.segs with
  | .error e => .error e
  | .ok at' => if fs.node at' = some .dir then .error .isDirectory else .ok at'

/-- A file is written at a path, once there are the directories it is to be in: the directories then,
and the place that is written. -/
def write (names : List String) : FileSystem × Option (List String) :=
  match fs.createDirAll names.dropLast.reverse with
  | (fs', .ok ()) => (fs', (fs'.openFile (plain names)).toOption)
  | (fs', .error _) => (fs', none)

/-- A write at a path makes or writes something at this place. -/
def Touches (names place : List String) : Prop :=
  (fs.write names).1.node place ≠ fs.node place ∨ (fs.write names).2 = some place

/-! ## From a list -/

/-- What a list has at a place. -/
def nodeIn (entries : List (List String × Node)) (place : List String) : Option Node :=
  if place = [] then some .dir else (entries.find? (fun e => e.1 = place)).map Prod.snd

/-- A file system with what is listed, which must be in directories of the list. -/
def ofEntries (entries : List (List String × Node)) (maxLinks : ℕ)
    (h : ∀ e ∈ entries, nodeIn entries e.1.dropLast = some .dir ∧
      e.1.getLast? ≠ some "." ∧ e.1.getLast? ≠ some "..") : FileSystem where
  node := nodeIn entries
  maxLinks := maxLinks
  cwd := []
  root_dir := rfl
  parent_dir at' name hsome := by
    unfold nodeIn at hsome
    rw [if_neg (by simp), Option.isSome_map, List.find?_isSome] at hsome
    obtain ⟨e, hmem, he⟩ := hsome
    have hentry := (h e hmem).1
    rw [of_decide_eq_true he, List.dropLast_concat] at hentry
    exact hentry
  real_name at' name hsome := by
    unfold nodeIn at hsome
    rw [if_neg (by simp), Option.isSome_map, List.find?_isSome] at hsome
    obtain ⟨e, hmem, he⟩ := hsome
    have hentry := (h e hmem).2
    rw [of_decide_eq_true he, List.getLast?_concat] at hentry
    simpa using hentry
  cwd_dir := rfl

end FileSystem

end Haruspex.Files
