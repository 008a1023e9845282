import Haruspex.JavaScript.Json
import Haruspex.Rust.Text

/-! Groups of clips (`video/kdenlive/{doc,edit}.rs`): which picture and sound are one clip, and leaves
that follow the clips they name. -/
namespace Haruspex.Kdenlive
open JavaScript (Json)
open Rust (parseUsize parseI64)
set_option autoImplicit false

/-! ## Values as `serde_json` reads them -/

def member (value : Json) (key : String) : Option Json :=
  match value with
  | .object fields => (fields.find? (fun f => f.1 = key)).map Prod.snd
  | _ => none

def asStr (value : Json) : Option String :=
  match value with
  | .string text => some text
  | _ => none

def asArray (value : Json) : Option (List Json) :=
  match value with
  | .array items => some items
  | _ => none

/-- `value[key] = new`, of a key the value has. -/
def setMember (value : Json) (key : String) (new : Json) : Json :=
  match value with
  | .object fields => .object (fields.map (fun f => if f.1 = key then (f.1, new) else f))
  | value => value

/-! ## Leaves -/

/-- `"2:152:-1"` → (2, 152). -/
def parseLeaf (data : String) : Option (ℕ × ℤ) :=
  match data.toList.splitOn ':' with
  | track :: pos :: _ => do
    let track ← parseUsize track
    let pos ← parseI64 pos
    return (track, pos)
  | _ => none

/-- What a leaf says after its track and its position. -/
def leafRest (data : String) : String :=
  match (data.toList.splitOn ':').drop 2 with
  | [] => "-1"
  | rest => String.ofList (List.intercalate [':'] rest)

/-- The data of a leaf on that track at that position. -/
def leafData (track : ℕ) (pos : ℤ) (rest : String) : String :=
  s!"{track}:{pos}:{rest}"

def leafOf (value : Json) : Option (ℕ × ℤ) :=
  (((member value "data").bind asStr).bind parseLeaf)

/-- `(video position, audio position)` of an `AVSplit` group joining the two main tracks. -/
def avPair (video audio : ℕ) (group : Json) : Option (ℤ × ℤ) :=
  if (member group "type").bind asStr = some "AVSplit" then
    let leaves := (((member group "children").bind asArray).getD []).filterMap leafOf
    match leaves.find? (fun l => l.1 = video), leaves.find? (fun l => l.1 = audio) with
    | some v, some a => some (v.2, a.2)
    | _, _ => none
  else none

def avPairs (groups : Json) (video audio : ℕ) : List (ℤ × ℤ) :=
  ((asArray groups).getD []).filterMap (avPair video audio)

/-! ## Leaves follow their clips -/

/-- Where the clip at a position of a track goes: `some none` when it went. -/
abbrev Moves := ℕ × ℤ → Option (Option ℤ)

variable (moves : Moves)

def isLeaf (value : Json) : Bool := (member value "type").bind asStr = some "Leaf"

def childCount (value : Json) : ℕ := (((member value "children").bind asArray).getD []).length

/-- What becomes of a leaf, and whether that is a change. -/
def remapLeaf (c : Json) : Option Json × Bool :=
  match (member c "data").bind asStr with
  | none => (some c, false)
  | some data =>
    match parseLeaf data with
    | none => (some c, false)
    | some (t, pos) =>
      match moves (t, pos) with
      | none => (some c, false)
      | some none => (none, true)
      | some (some p) =>
        let next := leafData t p (leafRest data)
        if next ≠ data then (some (setMember c "data" (.string next)), true) else (some c, false)

/-- A group is dropped when less than two members are left of it. -/
def keepGroup (r : Json × Bool) : Option Json × Bool :=
  if 2 ≤ childCount r.1 then (some r.1, r.2) else (none, true)

mutual

def remapGroups : Json → Json × Bool
  | .object fields => let r := remapFields fields; (.object r.1, r.2)
  | .array list => let r := remapList list; (.array r.1, r.2)
  | value => (value, false)

/-- The members of a group: only `children` changes. -/
def remapFields : List (String × Json) → List (String × Json) × Bool
  | [] => ([], false)
  | (key, value) :: rest =>
    if key = "children" then
      match value with
      | .array children => let r := remapChildren children; ((key, .array r.1) :: rest, r.2)
      | _ => ((key, value) :: rest, false)
    else
      let r := remapFields rest
      ((key, value) :: r.1, r.2)

def remapChildren : List Json → List Json × Bool
  | [] => ([], false)
  | c :: rest =>
    let r := if isLeaf c then remapLeaf moves c else keepGroup (remapGroups c)
    let later := remapChildren rest
    (r.1.toList ++ later.1, r.2 || later.2)

def remapList : List Json → List Json × Bool
  | [] => ([], false)
  | g :: rest =>
    let r := keepGroup (remapGroups g)
    let later := remapList rest
    (r.1.toList ++ later.1, r.2 || later.2)

end

/-! ## Groups that stay as they are -/

/-- A leaf of a named clip is written as leaves are. -/
def SettledLeaf (named : ℕ × ℤ → Prop) (c : Json) : Prop :=
  ∀ data : String, (member c "data").bind asStr = some data → ∀ (t : ℕ) (p : ℤ),
    parseLeaf data = some (t, p) → named (t, p) → leafData t p (leafRest data) = data

mutual

/-- At every depth, groups have two members or more and leaves of named clips are written as leaves
are. -/
def Settled (named : ℕ × ℤ → Prop) : Json → Prop
  | .object fields => SettledFields named fields
  | .array list => SettledList named list
  | _ => True

def SettledFields (named : ℕ × ℤ → Prop) : List (String × Json) → Prop
  | [] => True
  | (key, value) :: rest =>
    if key = "children" then
      match value with
      | .array children => SettledChildren named children
      | _ => True
    else SettledFields named rest

def SettledChildren (named : ℕ × ℤ → Prop) : List Json → Prop
  | [] => True
  | c :: rest =>
    (if isLeaf c then SettledLeaf named c else Settled named c ∧ 2 ≤ childCount c) ∧
      SettledChildren named rest

def SettledList (named : ℕ × ℤ → Prop) : List Json → Prop
  | [] => True
  | g :: rest => (Settled named g ∧ 2 ≤ childCount g) ∧ SettledList named rest

end

variable {moves}

/-- No clip goes anywhere else. -/
def StayAll (moves : Moves) : Prop :=
  ∀ (t : ℕ) (p : ℤ) (dest : Option ℤ), moves (t, p) = some dest → dest = some p

def Named (moves : Moves) (key : ℕ × ℤ) : Prop := (moves key).isSome

theorem remapLeaf_changes {c : Json} (h : (remapLeaf moves c).1 = none) :
    (remapLeaf moves c).2 = true := by
  unfold remapLeaf at h ⊢
  grind

theorem remapLeaf_eq_iff (stay : StayAll moves) {c : Json} :
    remapLeaf moves c = (some c, false) ↔ SettledLeaf (Named moves) c := by
  unfold remapLeaf SettledLeaf Named
  cases hdata : (member c "data").bind asStr with
  | none => simp
  | some data =>
    cases hleaf : parseLeaf data with
    | none => simp [hleaf]
    | some key =>
      obtain ⟨t, pos⟩ := key
      cases hmove : moves (t, pos) with
      | none => simp [hleaf, hmove]
      | some dest =>
        obtain rfl := stay t pos dest hmove
        by_cases hnext : leafData t pos (leafRest data) = data
        · simp [hleaf, hmove, hnext]
        · simp [hleaf, hmove, hnext]

theorem keepGroup_changes {r : Json × Bool} (h : (keepGroup r).1 = none) : (keepGroup r).2 = true := by
  unfold keepGroup at h ⊢
  split at h
  · cases h
  · rename_i hfew
    rw [if_neg hfew]

theorem keepGroup_eq_iff {r : Json × Bool} {c : Json} :
    keepGroup r = (some c, false) ↔ r = (c, false) ∧ 2 ≤ childCount c := by
  unfold keepGroup
  split
  · rename_i hmany
    constructor
    · intro h
      have hr : r = (c, false) := by simpa [Prod.ext_iff] using h
      exact ⟨hr, by rwa [hr] at hmany⟩
    · intro h
      simp [h.1]
  · rename_i hfew
    constructor
    · intro h
      simp at h
    · intro h
      rw [h.1] at hfew
      exact absurd h.2 hfew

/-- One member of a list and the rest of it. -/
theorem kept_cons_eq_iff {r : Option Json × Bool} {later : List Json × Bool} {c : Json}
    {rest : List Json} (h : r.1 = none → r.2 = true) :
    (r.1.toList ++ later.1, r.2 || later.2) = (c :: rest, false) ↔
      r = (some c, false) ∧ later = (rest, false) := by
  obtain ⟨left, changed⟩ := r
  cases left with
  | none =>
    have hchanged : changed = true := h rfl
    simp [hchanged]
  | some x =>
    simp only [Option.toList_some, List.cons_append, List.nil_append, List.cons.injEq,
      Bool.or_eq_false_iff, Option.some.injEq, Prod.ext_iff]
    tauto

mutual

theorem remapGroups_eq_iff (stay : StayAll moves) :
    ∀ value : Json, remapGroups moves value = (value, false) ↔ Settled (Named moves) value
  | .object fields => by
    have h := remapFields_eq_iff stay fields
    simpa [remapGroups, Settled, Prod.ext_iff] using h
  | .array list => by
    have h := remapList_eq_iff stay list
    simpa [remapGroups, Settled, Prod.ext_iff] using h
  | .null | .bool _ | .number _ | .string _ => by simp [remapGroups, Settled]

theorem remapFields_eq_iff (stay : StayAll moves) : ∀ fields : List (String × Json),
    remapFields moves fields = (fields, false) ↔ SettledFields (Named moves) fields
  | [] => by simp [remapFields, SettledFields]
  | (key, value) :: rest => by
    unfold remapFields SettledFields
    by_cases hkey : key = "children"
    · simp only [hkey, if_true]
      cases value with
      | array children =>
        have h := remapChildren_eq_iff stay children
        simpa [Prod.ext_iff] using h
      | null => simp
      | bool value => simp
      | number literal => simp
      | string value => simp
      | object fields => simp
    · have h := remapFields_eq_iff stay rest
      simpa [hkey, Prod.ext_iff] using h

theorem remapChildren_eq_iff (stay : StayAll moves) : ∀ children : List Json,
    remapChildren moves children = (children, false) ↔ SettledChildren (Named moves) children
  | [] => by simp [remapChildren, SettledChildren]
  | c :: rest => by
    have hrest := remapChildren_eq_iff stay rest
    unfold remapChildren SettledChildren
    by_cases hc : isLeaf c
    · simp only [hc, if_true]
      rw [kept_cons_eq_iff remapLeaf_changes, remapLeaf_eq_iff stay, hrest]
    · have hgroup := remapGroups_eq_iff stay c
      simp only [hc, Bool.false_eq_true, if_false]
      rw [kept_cons_eq_iff keepGroup_changes, keepGroup_eq_iff, hgroup, hrest]

theorem remapList_eq_iff (stay : StayAll moves) : ∀ list : List Json,
    remapList moves list = (list, false) ↔ SettledList (Named moves) list
  | [] => by simp [remapList, SettledList]
  | g :: rest => by
    have hgroup := remapGroups_eq_iff stay g
    have hrest := remapList_eq_iff stay rest
    unfold remapList SettledList
    rw [kept_cons_eq_iff keepGroup_changes, keepGroup_eq_iff, hgroup, hrest]

end

end Haruspex.Kdenlive
