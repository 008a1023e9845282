import Haruspex.Rust.Text

/-! Which folders overlap (`code_tools/folders.rs`). -/
namespace Haruspex.CodeFolders
open Rust
set_option autoImplicit false

/-! ## Folders as keys -/

/-- `split_once` -/
def splitOnce (c : Char) (s : String) : Option (String × String) :=
  if c ∈ s.toList then
    some (String.ofList (s.toList.takeWhile (fun x => x ≠ c)),
      String.ofList ((s.toList.dropWhile (fun x => x ≠ c)).drop 1))
  else none

/-- `trim_end_matches('/')` -/
def trimSlashes (path : String) : String :=
  String.ofList ((path.toList.reverse.dropWhile (fun c => c = '/')).reverse)

def wslKey (distro path : String) : String :=
  let path := trimSlashes path
  "wsl:" ++ distro ++ ":" ++ if path = "" then "/" else path

/-- The distro and the Linux path of a WSL folder's key. -/
def splitWslKey (key : String) : Option (String × String) :=
  (stripPrefix key "wsl:").bind (splitOnce ':')

/-- `path` is `dir` or inside it, compared as text by component. -/
def linuxWithin (path dir : String) : Bool :=
  dir = "/" || path = dir ||
    (stripPrefix path dir).any (fun rest => rest.toList.head? = some '/')

section

variable {C : Type} [DecidableEq C] (components : String → List C)

/-- `Path::starts_with`, which compares whole components. -/
def startsWith (path base : String) : Bool := components base <+: components path

def overlaps (a b : String) : Bool :=
  match splitWslKey a, splitWslKey b with
  | some (da, pa), some (db, pb) => da = db && (linuxWithin pa pb || linuxWithin pb pa)
  | none, none => startsWith components a b || startsWith components b a
  | _, _ => false

end

/-! ## What a key stands for -/

/-- One of them is the other, or inside it. -/
def Nested {A : Type} (a b : List A) : Prop := a <+: b ∨ b <+: a

theorem Nested.symm {A : Type} {a b : List A} (h : Nested a b) : Nested b a := Or.symm h

theorem nested_nil {A : Type} (a : List A) : Nested [] a := Or.inl (List.nil_prefix)

/-- A folder of the host or of a distro, by its components. -/
inductive Place (C : Type) where
  | host (names : List C)
  | wsl (distro : String) (names : List String)
  deriving DecidableEq

/-- The components of a Linux path, below the root. -/
def linuxComponents (path : String) : List String :=
  if path = "/" then [] else (path.toList.splitOn '/').map String.ofList

def place {C : Type} (components : String → List C) (key : String) : Place C :=
  match splitWslKey key with
  | some (distro, path) => .wsl distro (linuxComponents path)
  | none => .host (components key)

/-- The same folder, or one inside the other; folders of different systems never are. -/
def Overlap {C : Type} : Place C → Place C → Prop
  | .host a, .host b => Nested a b
  | .wsl da a, .wsl db b => da = db ∧ Nested a b
  | _, _ => False

theorem Overlap.symm {C : Type} {a b : Place C} (h : Overlap a b) : Overlap b a := by
  cases a <;> cases b
  · exact Nested.symm h
  · exact h
  · exact h
  · exact ⟨h.1.symm, h.2.symm⟩

/-! ## Linux paths -/

theorem intercalate_append {A : Type} (sep : List A) {xs ys : List (List A)} (hxs : xs ≠ [])
    (hys : ys ≠ []) :
    sep.intercalate (xs ++ ys) = sep.intercalate xs ++ sep ++ sep.intercalate ys := by
  induction xs with
  | nil => exact absurd rfl hxs
  | cons x xs ih =>
    by_cases hnil : xs = []
    · subst hnil
      rw [List.singleton_append, List.intercalate_cons_of_ne_nil hys, List.intercalate_singleton,
        List.append_assoc]
    · rw [List.cons_append, List.intercalate_cons_of_ne_nil (by simp [hnil]), ih hnil,
        List.intercalate_cons_of_ne_nil hnil]
      simp only [List.append_assoc]

/-- Text whose parts start with another's parts goes on after a separator. -/
theorem splitOn_prefix_iff {c : Char} {a b : List Char} :
    a.splitOn c <+: b.splitOn c ↔ a = b ∨ ∃ rest, b = a ++ c :: rest := by
  constructor
  · rintro ⟨parts, h⟩
    have hb := @List.intercalate_splitOn _ b _ _ c
    rw [← h] at hb
    by_cases hparts : parts = []
    · rw [hparts, List.append_nil, List.intercalate_splitOn] at hb
      exact Or.inl hb
    · rw [intercalate_append [c] (List.splitOn_ne_nil c a) hparts, List.intercalate_splitOn] at hb
      exact Or.inr ⟨[c].intercalate parts, by simp [← hb]⟩
  · rintro (rfl | ⟨rest, rfl⟩)
    · exact List.prefix_refl _
    · rw [List.splitOn_append_cons_self]
      exact List.prefix_append _ _

theorem map_ofList_prefix_iff {a b : List (List Char)} :
    a.map String.ofList <+: b.map String.ofList ↔ a <+: b :=
  List.prefix_map_iff_of_injective (fun _ _ h => String.ofList_injective h)

/-- Below a folder that is not the root. -/
theorem linuxWithin_iff {path dir : String} (hdir : dir ≠ "/") (hpath : path ≠ "/") :
    linuxWithin path dir = true ↔ linuxComponents dir <+: linuxComponents path := by
  have hrest : (stripPrefix path dir).any (fun rest => rest.toList.head? = some '/') = true ↔
      ∃ rest, path.toList = dir.toList ++ '/' :: rest := by
    unfold stripPrefix
    split
    · rename_i hstart
      obtain ⟨tail, htail⟩ := hstart
      rw [← htail, List.drop_left, Option.any_some, String.toList_ofList]
      cases tail with
      | nil => simp
      | cons c tail => simp
    · rename_i hstart
      refine ⟨fun h => Bool.noConfusion h, ?_⟩
      rintro ⟨rest, hpath⟩
      exact absurd ⟨_, hpath.symm⟩ hstart
  have hsame : path = dir ↔ dir.toList = path.toList := by
    rw [String.toList_inj]
    exact eq_comm
  unfold linuxWithin linuxComponents
  rw [if_neg hdir, if_neg hpath, map_ofList_prefix_iff, splitOn_prefix_iff, Bool.or_eq_true, hrest,
    ← hsame]
  simp [hdir]

theorem linuxWithin_root (path : String) : linuxWithin path "/" = true := by
  simp [linuxWithin]

theorem linuxWithin_or_iff (a b : String) :
    linuxWithin a b = true ∨ linuxWithin b a = true ↔
      Nested (linuxComponents a) (linuxComponents b) := by
  by_cases ha : a = "/"
  · subst ha
    exact ⟨fun _ => nested_nil _, fun _ => Or.inr (linuxWithin_root b)⟩
  · by_cases hb : b = "/"
    · subst hb
      exact ⟨fun _ => (nested_nil _).symm, fun _ => Or.inl (linuxWithin_root a)⟩
    · rw [linuxWithin_iff hb ha, linuxWithin_iff ha hb]
      exact Or.comm

/-- Two keys overlap when what they stand for does. -/
theorem overlaps_iff {C : Type} [DecidableEq C] (components : String → List C) (a b : String) :
    overlaps components a b = true ↔ Overlap (place components a) (place components b) := by
  unfold overlaps place
  cases splitWslKey a with
  | none =>
    cases splitWslKey b with
    | none => simp [startsWith, Overlap, Nested, or_comm]
    | some q => simp [Overlap]
  | some p =>
    cases splitWslKey b with
    | none => simp [Overlap]
    | some q => simp [Overlap, ← linuxWithin_or_iff]

theorem overlaps_comm {C : Type} [DecidableEq C] (components : String → List C) (a b : String) :
    overlaps components a b = overlaps components b a := by
  rw [Bool.eq_iff_iff, overlaps_iff, overlaps_iff]
  exact ⟨Overlap.symm, Overlap.symm⟩

/-! ## Paths of a Unix host -/

/-- `Path::components`: the root or a leading `.`, then the names. -/
def unixComponents (path : String) : List String :=
  let segs := ((path.toList.splitOn '/').filter (fun seg => seg ≠ [])).map String.ofList
  (if path.toList.head? = some '/' then ["/"] else if segs.head? = some "." then ["."] else []) ++
    segs.filter (fun seg => seg ≠ ".")

example : overlaps unixComponents "/repo" "/repo/./sub" = true := by decide

example : overlaps unixComponents "/repo" "/repository" = false := by decide

example : overlaps unixComponents (wslKey "Ubuntu" "/home/a/") (wslKey "Debian" "/home/a") = false := by
  decide

end Haruspex.CodeFolders
