import Haruspex.Library.FileSystem

/-! Paths in a working directory (`fs_tools/path.rs`), on a system that separates names by `/`. -/
namespace Haruspex.FsTools
open Files
set_option autoImplicit false

/-- A path as the system and `std::path` read it. -/
def parsePath (path : String) : RawPath :=
  let segs := ((path.toList.splitOn '/').filter (fun seg => seg ≠ [])).map String.ofList
  { absolute := path.toList.head? = some '/'
    names := segs.filter (fun seg => seg ≠ ".")
    trailing := path.toList.getLast? = some '/' ∨ segs.getLast? = some "." }

/-- The text of an error of the system. -/
def errorText (e : Errno) : String :=
  match e with
  | .notFound => "No such file or directory (os error 2)"
  | .exists => "File exists (os error 17)"
  | .notDirectory => "Not a directory (os error 20)"
  | .isDirectory => "Is a directory (os error 21)"
  | .loop => "Too many levels of symbolic links (os error 40)"

def escapes : String := "path escapes working directory"

variable (fs : FileSystem)

/-- `Path::canonicalize` of a path that may be empty. -/
def canonicalize (path : String) : Except Errno (List String) :=
  if path = "" then .error .notFound else fs.resolve (parsePath path)

/-- The first of `ancestors().skip(1)` that is there, of names last to first. -/
def deepestAncestor : List String → Option (List String)
  | [] => none
  | _ :: parents =>
    if fs.pathExists (FileSystem.plain parents.reverse) then some parents.reverse
    else deepestAncestor parents

def resolveNonexistent (candidate : RawPath) : Except String (List String) :=
  match deepestAncestor fs candidate.names.reverse with
  | none => .error "path has no existing ancestor directory"
  | some existing =>
    let tail := candidate.names.drop existing.length
    if ".." ∈ tail then .error escapes
    else
      match fs.resolve (FileSystem.plain existing) with
      | .error e => .error ("Failed to canonicalize parent directory: " ++ errorText e)
      | .ok existingCanonical => .ok (existingCanonical ++ tail)

local instance lawfulBEq_chars : LawfulBEq (List Char) := inferInstance

/-- A `..` between separators of any system. -/
def hasTraversal (relPath : String) : Bool :=
  ['.', '.'] ∈ relPath.toList.splitOnP (fun c => c = '/' || c = '\\')

/-- `canonical.starts_with(workdir)` -/
def inWorkdir (workdir canonical : List String) : Bool := workdir <+: canonical

/-- What a relative path stands for. -/
def joined (workdir : List String) (rel : RawPath) : RawPath :=
  ⟨true, workdir ++ rel.names, rel.trailing⟩

def resolveInWorkdir (workdir relPath : String) : Except String (List String) :=
  let workdirCanonical := (canonicalize fs workdir).mapError (fun e =>
    "Failed to canonicalize working directory: " ++ errorText e)
  if relPath = "" ∨ relPath = "." then workdirCanonical
  else if hasTraversal relPath then .error escapes
  else
    match workdirCanonical with
    | .error e => .error e
    | .ok workdirCanonical =>
      let rel := parsePath relPath
      let canonical :=
        if rel.absolute then
          match fs.resolve rel with
          | .ok canonical => .ok canonical
          | .error _ => resolveNonexistent fs rel
        else
          let candidate := joined workdirCanonical rel
          if fs.pathExists candidate then
            (fs.resolve candidate).mapError (fun e => "Failed to canonicalize path: " ++ errorText e)
          else resolveNonexistent fs candidate
      match canonical with
      | .error e => .error e
      | .ok canonical =>
        if inWorkdir workdirCanonical canonical then .ok canonical else .error escapes

end Haruspex.FsTools
