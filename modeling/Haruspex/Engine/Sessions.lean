import Haruspex.Library.KeyedMap
import Haruspex.Library.Runs
import Mathlib.Data.List.Induction

/-! Which window has each Code session open (`code_tools/claims.rs`), and the one listing made of what all windows answer
(`merge` of `engine/mod.rs`). -/
namespace Haruspex.Engine
open KeyedMap Runs
set_option autoImplicit false

variable {S W H : Type} [DecidableEq S] [DecidableEq W]

/-! ## Claims -/

/-- `CodeSessionClaims`: each session's window, and what its last owner left for the next. -/
structure Claims (S W H : Type) where
  owners : Dict S W
  handoffs : Dict S H

structure CodeClaim (W H : Type) where
  owner : Option W
  handoff : Option H

namespace Claims

section
variable (c : Claims S W H)

def claim (id : S) (label : W) (alive : W → Bool) : Claims S W H × CodeClaim W H :=
  match (c.owners.lookup id).filter fun owner => owner ≠ label && alive owner with
  | some owner => (c, ⟨some owner, none⟩)
  | none => (⟨c.owners.insert id label, c.handoffs.erase id⟩, ⟨none, c.handoffs.lookup id⟩)

def release (id : S) (label : W) (handoff : Option H) : Claims S W H :=
  match c.owners.lookup id with
  | some owner =>
    if owner ≠ label then c
    else ⟨c.owners.erase id, match handoff with | some h => c.handoffs.insert id h | none => c.handoffs.erase id⟩
  | none => { c with handoffs := match handoff with | some h => c.handoffs.insert id h | none => c.handoffs }

def releaseWindow (label : W) : Claims S W H := { c with owners := keep (fun _ owner => owner ≠ label) c.owners }

def ownerOf (id : S) (alive : W → Bool) : Option W := (c.owners.lookup id).filter alive

/-- The sessions that windows have open, in any order. -/
def openIds (alive : W → Bool) : List S := (c.owners.entries.filter fun e => alive e.2).map Sigma.fst

end

theorem claim_spec (c : Claims S W H) (id : S) (label : W) (alive : W → Bool) :
    (∃ owner, c.owners.lookup id = some owner ∧ owner ≠ label ∧ alive owner = true ∧
      c.claim id label alive = (c, ⟨some owner, none⟩)) ∨
    (∀ owner, c.owners.lookup id = some owner → owner ≠ label → alive owner = false) ∧
      c.claim id label alive = (⟨c.owners.insert id label, c.handoffs.erase id⟩, ⟨none, c.handoffs.lookup id⟩) := by
  unfold claim
  cases hfree : (c.owners.lookup id).filter fun owner => owner ≠ label && alive owner with
  | some owner =>
    obtain ⟨howner, hother⟩ := Option.filter_eq_some_iff.mp hfree
    rw [Bool.and_eq_true, decide_eq_true_eq] at hother
    exact Or.inl ⟨owner, howner, hother.1, hother.2, rfl⟩
  | none =>
    refine Or.inr ⟨fun owner howner hne => ?_, rfl⟩
    have hnot := Option.filter_eq_none_iff.mp hfree owner howner
    simpa [hne] using hnot

theorem release_owners (c : Claims S W H) (id : S) (label : W) (handoff : Option H) :
    (c.release id label handoff).owners = if c.owners.lookup id = some label then c.owners.erase id else c.owners := by
  unfold release
  cases howner : c.owners.lookup id with
  | none => rfl
  | some owner =>
    dsimp only
    by_cases hlabel : owner = label
    · rw [if_neg (not_not_intro hlabel), if_pos (by rw [hlabel])]
    · rw [if_pos hlabel, if_neg fun h => hlabel (Option.some_inj.mp h)]

end Claims

/-! ## Windows -/

/-- `granted`: the sessions each window was given and has not let go of. A window that is gone is `closing` until its claims are
dropped, and none of its name opens before. -/
structure Windows (S W H : Type) where
  claims : Claims S W H
  opened : List W
  closing : List W
  granted : List (W × S)

def Windows.start : Windows S W H := ⟨⟨∅, ∅⟩, [], [], []⟩

def Windows.alive (s : Windows S W H) (label : W) : Bool := label ∈ s.opened

inductive Step (S W H : Type) where
  | opens (label : W)
  | claims (label : W) (id : S)
  | releases (label : W) (id : S) (handoff : Option H)
  | closes (label : W)
  | destroyed (label : W)

namespace Windows

def opens (label : W) (s : Windows S W H) : Windows S W H :=
  if label ∈ s.opened ∨ label ∈ s.closing then s else { s with opened := label :: s.opened }

def claim (label : W) (id : S) (s : Windows S W H) : Windows S W H :=
  if label ∉ s.opened then s
  else
    { s with
      claims := (s.claims.claim id label s.alive).1
      granted := if (s.claims.claim id label s.alive).2.owner.isNone then (label, id) :: s.granted else s.granted }

def release (label : W) (id : S) (handoff : Option H) (s : Windows S W H) : Windows S W H :=
  if label ∉ s.opened then s
  else
    { s with
      claims := s.claims.release id label handoff
      granted := s.granted.filter fun g => g ≠ (label, id) }

def close (label : W) (s : Windows S W H) : Windows S W H :=
  if label ∉ s.opened then s
  else
    { s with
      opened := s.opened.filter fun w => w ≠ label
      closing := label :: s.closing
      granted := s.granted.filter fun g => g.1 ≠ label }

def destroyed (label : W) (s : Windows S W H) : Windows S W H :=
  if label ∉ s.closing then s
  else
    { s with
      claims := s.claims.releaseWindow label
      closing := s.closing.filter fun w => w ≠ label }

end Windows

def apply : Step S W H → Windows S W H → Windows S W H
  | .opens label, s => s.opens label
  | .claims label id, s => s.claim label id
  | .releases label id handoff, s => s.release label id handoff
  | .closes label, s => s.close label
  | .destroyed label, s => s.destroyed label

/-- An open window was given just what it owns. -/
structure Sound (s : Windows S W H) : Prop where
  granted : ∀ label id, (label, id) ∈ s.granted ↔ label ∈ s.opened ∧ s.claims.owners.lookup id = some label
  owners : ∀ id label, s.claims.owners.lookup id = some label → label ∈ s.opened ∨ label ∈ s.closing
  apart : ∀ label ∈ s.opened, label ∉ s.closing

variable {s : Windows S W H}

omit [DecidableEq W] in
theorem Sound.start : Sound (Windows.start : Windows S W H) :=
  ⟨fun label id => iff_of_false List.not_mem_nil fun h => List.not_mem_nil h.1, fun id label h => (by cases h),
    fun label h => (by cases h)⟩

theorem Sound.claim (h : Sound s) {label : W} (hopen : label ∈ s.opened) (id : S) : Sound (s.claim label id) := by
  unfold Windows.claim
  rw [if_neg (not_not_intro hopen)]
  rcases s.claims.claim_spec id label s.alive with ⟨owner, -, -, -, hclaim⟩ | ⟨hfree, hclaim⟩
  · rw [hclaim]
    exact h
  · rw [hclaim]
    refine ⟨fun w i => ?_, fun i w hw => ?_, h.apart⟩
    · change (w, i) ∈ (label, id) :: s.granted ↔ w ∈ s.opened ∧ (s.claims.owners.insert id label).lookup i = some w
      rw [List.mem_cons, h.granted, lookup_insert_eq, Prod.mk.injEq]
      by_cases hi : i = id
      · rw [if_pos hi, Option.some_inj]
        constructor
        · rintro (⟨rfl, -⟩ | ⟨hw, howner⟩)
          · exact ⟨hopen, rfl⟩
          · rw [hi] at howner
            by_cases hlabel : w = label
            · exact ⟨hw, hlabel.symm⟩
            · have hgone := hfree w howner hlabel
              unfold Windows.alive at hgone
              exact absurd hw (of_decide_eq_false hgone)
        · rintro ⟨-, rfl⟩
          exact Or.inl ⟨rfl, hi⟩
      · rw [if_neg hi]
        simp [hi]
    · change (s.claims.owners.insert id label).lookup i = some w at hw
      rw [lookup_insert_eq] at hw
      split at hw
      · rw [← Option.some_inj.mp hw]
        exact Or.inl hopen
      · exact h.owners i w hw

theorem Sound.release (h : Sound s) (label : W) (id : S) (handoff : Option H) : Sound (s.release label id handoff) := by
  unfold Windows.release
  split
  · exact h
  · have hlookup : ∀ i w, (s.claims.release id label handoff).owners.lookup i = some w ↔
        s.claims.owners.lookup i = some w ∧ ¬ (w = label ∧ i = id) := fun i w => by
      rw [Claims.release_owners]
      split
      · rename_i howner
        rw [lookup_erase_eq]
        split
        · rename_i hi
          rw [hi, howner, Option.some_inj]
          refine iff_of_false (fun h => by cases h) ?_
          rintro ⟨rfl, hnot⟩
          exact hnot ⟨rfl, rfl⟩
        · rename_i hi
          simp [hi]
      · rename_i howner
        refine (and_iff_left_of_imp fun hw => ?_).symm
        rintro ⟨rfl, rfl⟩
        exact howner hw
    refine ⟨fun w i => ?_, fun i w hw => h.owners i w ((hlookup i w).mp hw).1, h.apart⟩
    dsimp only
    rw [List.mem_filter, h.granted, hlookup, decide_eq_true_eq, ne_eq, Prod.mk.injEq, and_assoc]

theorem Sound.close (h : Sound s) (label : W) : Sound (s.close label) := by
  unfold Windows.close
  split
  · exact h
  · refine ⟨fun w i => ?_, fun i w hw => ?_, fun w hw => ?_⟩
    · dsimp only
      rw [List.mem_filter, h.granted, decide_eq_true_eq, List.mem_filter, decide_eq_true_eq, and_right_comm]
    · dsimp only
      by_cases hlabel : w = label
      · exact Or.inr (List.mem_cons.mpr (Or.inl hlabel))
      · rcases h.owners i w hw with hopen | hclosing
        · exact Or.inl (List.mem_filter.mpr ⟨hopen, decide_eq_true hlabel⟩)
        · exact Or.inr (List.mem_cons_of_mem _ hclosing)
    · obtain ⟨hopen, hne⟩ := List.mem_filter.mp hw
      rw [decide_eq_true_eq] at hne
      exact fun hin => (List.mem_cons.mp hin).elim hne (h.apart w hopen)

theorem Sound.destroyed (h : Sound s) (label : W) : Sound (s.destroyed label) := by
  unfold Windows.destroyed
  by_cases hclosing : label ∈ s.closing
  · rw [if_neg (not_not_intro hclosing)]
    have hlookup : ∀ i w, (s.claims.releaseWindow label).owners.lookup i = some w ↔
        s.claims.owners.lookup i = some w ∧ w ≠ label := fun i w => by
      unfold Claims.releaseWindow
      rw [lookup_keep, Option.filter_eq_some_iff, decide_eq_true_eq]
    refine ⟨fun w i => ?_, fun i w hw => ?_, fun w hw hin => h.apart w hw (List.mem_filter.mp hin).1⟩
    · dsimp only
      rw [h.granted, hlookup]
      refine and_congr_right fun hopen => (and_iff_left ?_).symm
      rintro rfl
      exact h.apart w hopen hclosing
    · obtain ⟨hw, hne⟩ := (hlookup i w).mp hw
      exact (h.owners i w hw).imp_right fun hin => List.mem_filter.mpr ⟨hin, decide_eq_true hne⟩
  · rw [if_pos hclosing]
    exact h

theorem Sound.opens (h : Sound s) (label : W) : Sound (s.opens label) := by
  unfold Windows.opens
  split
  · exact h
  · rename_i hnew
    obtain ⟨hclosed, hnot⟩ := not_or.mp hnew
    have hunowned : ∀ id, s.claims.owners.lookup id ≠ some label := fun id howner =>
      (h.owners id label howner).elim hclosed hnot
    refine ⟨fun w i => ?_, fun i w hw => (h.owners i w hw).imp_left (List.mem_cons_of_mem _), fun w hw => ?_⟩
    · dsimp only
      rw [h.granted, List.mem_cons]
      refine and_congr_left fun howner => (or_iff_right ?_).symm
      rintro rfl
      exact hunowned i howner
    · rcases List.mem_cons.mp hw with rfl | hw
      · exact hnot
      · exact h.apart w hw

theorem Sound.apply (h : Sound s) (step : Step S W H) : Sound (Engine.apply step s) := by
  cases step with
  | opens label => exact h.opens label
  | claims label id =>
    by_cases hopen : label ∈ s.opened
    · exact h.claim hopen id
    · change Sound (s.claim label id)
      unfold Windows.claim
      rw [if_pos hopen]
      exact h
  | releases label id handoff => exact h.release label id handoff
  | closes label => exact h.close label
  | destroyed label => exact h.destroyed label

theorem sound_run (steps : List (Step S W H)) : Sound (run Engine.apply Windows.start steps) :=
  run_keeps (P := fun _ _ => True) Sound (fun _ step hs _ => hs.apply step) Sound.start fun _ _ _ _ => trivial

/-- However windows open, claim and release sessions, close and are dropped, no two windows have one session. A claim is refused
exactly if another open window has the session, which the answer names; and the sessions open are those some window has. -/
theorem one_window_each (steps : List (Step S W H)) :
    (∀ w w' id, (w, id) ∈ (run Engine.apply Windows.start steps).granted →
      (w', id) ∈ (run Engine.apply Windows.start steps).granted → w = w') ∧
    (∀ w id owner, ((run Engine.apply Windows.start steps).claims.claim id w
        (run Engine.apply Windows.start steps).alive).2.owner = some owner ↔
      owner ≠ w ∧ (owner, id) ∈ (run Engine.apply Windows.start steps).granted) ∧
    ∀ id, id ∈ (run Engine.apply Windows.start steps).claims.openIds (run Engine.apply Windows.start steps).alive ↔
      ∃ w, (w, id) ∈ (run Engine.apply Windows.start steps).granted := by
  have h := sound_run steps
  generalize run Engine.apply Windows.start steps = s at h
  refine ⟨fun w w' id hw hw' => ?_, fun w id owner => ?_, fun id => ?_⟩
  · have howner := ((h.granted w id).mp hw).2
    rw [((h.granted w' id).mp hw').2, Option.some_inj] at howner
    exact howner.symm
  · rw [h.granted]
    rcases s.claims.claim_spec id w s.alive with ⟨o, ho, hne, halive, hclaim⟩ | ⟨hfree, hclaim⟩
    · rw [hclaim, ho, Option.some_inj]
      constructor
      · rintro rfl
        exact ⟨hne, of_decide_eq_true halive, rfl⟩
      · rintro ⟨-, -, rfl⟩
        rfl
    · rw [hclaim]
      refine iff_of_false (fun h => by cases h) ?_
      rintro ⟨hne, hopen, howner⟩
      exact absurd hopen (of_decide_eq_false (hfree owner howner hne))
  · unfold Claims.openIds
    rw [List.mem_map]
    constructor
    · rintro ⟨⟨i, w⟩, hin, rfl⟩
      obtain ⟨hentry, halive⟩ := List.mem_filter.mp hin
      exact ⟨w, (h.granted w i).mpr ⟨of_decide_eq_true halive, mem_entries.mp hentry⟩⟩
    · rintro ⟨w, hw⟩
      obtain ⟨hopen, howner⟩ := (h.granted w id).mp hw
      exact ⟨⟨id, w⟩, List.mem_filter.mpr ⟨mem_entries.mpr howner, decide_eq_true hopen⟩, rfl⟩

/-! ## Handoffs -/

/-- Nobody has the session, and something was left for the next. -/
def Left (id : S) (left : H) (s : Windows S W H) : Prop :=
  s.claims.owners.lookup id = none ∧ s.claims.handoffs.lookup id = some left

/-- Nobody gets the session, and nobody leaves something else. -/
def Untouched (id : S) (_ : Windows S W H) (step : Step S W H) : Prop :=
  (∀ w, step ≠ .claims w id) ∧ ∀ w h, step ≠ .releases w id (some h)

theorem left_apply {id : S} {left : H} (hleft : Left id left s) {step : Step S W H} (hstep : Untouched id s step) :
    Left id left (apply step s) := by
  obtain ⟨howner, hhandoff⟩ := hleft
  cases step with
  | opens label =>
    change Left id left (s.opens label)
    unfold Windows.opens
    split <;> exact ⟨howner, hhandoff⟩
  | closes label =>
    change Left id left (s.close label)
    unfold Windows.close
    split <;> exact ⟨howner, hhandoff⟩
  | destroyed label =>
    change Left id left (s.destroyed label)
    unfold Windows.destroyed
    split
    · exact ⟨howner, hhandoff⟩
    · refine ⟨?_, hhandoff⟩
      change (keep _ s.claims.owners).lookup id = none
      rw [lookup_keep, howner]
      rfl
  | claims label i =>
    have hi : id ≠ i := by
      rintro rfl
      exact hstep.1 label rfl
    change Left id left (s.claim label i)
    unfold Windows.claim
    split
    · exact ⟨howner, hhandoff⟩
    · rcases s.claims.claim_spec i label s.alive with ⟨owner, -, -, -, hclaim⟩ | ⟨-, hclaim⟩
      · rw [hclaim]
        exact ⟨howner, hhandoff⟩
      · rw [hclaim]
        exact ⟨(AList.lookup_insert_ne hi).trans howner, (AList.lookup_erase_ne hi).trans hhandoff⟩
  | releases label i handoff =>
    change Left id left (s.release label i handoff)
    unfold Windows.release
    split
    · exact ⟨howner, hhandoff⟩
    · change (s.claims.release i label handoff).owners.lookup id = none ∧
        (s.claims.release i label handoff).handoffs.lookup id = some left
      by_cases hi : id = i
      · subst hi
        cases handoff with
        | some other => exact absurd rfl (hstep.2 label other)
        | none =>
          unfold Claims.release
          rw [howner]
          exact ⟨howner, hhandoff⟩
      · refine ⟨?_, ?_⟩
        · rw [Claims.release_owners]
          split
          · rw [AList.lookup_erase_ne hi, howner]
          · exact howner
        · unfold Claims.release
          cases s.claims.owners.lookup i with
          | none => cases handoff with
            | none => exact hhandoff
            | some other => exact (AList.lookup_insert_ne hi).trans hhandoff
          | some owner =>
            dsimp only
            split
            · exact hhandoff
            · cases handoff with
              | none => exact (AList.lookup_erase_ne hi).trans hhandoff
              | some other => exact (AList.lookup_insert_ne hi).trans hhandoff

section
variable {T I : Type} [DecidableEq I] (idOf : T → Option I) (hasStatus : T → Bool)

/-- `merge`, one item: where the listing has an item with its id, the first of the two that has a status stays. -/
def place (out : List T) (item : T) : List T :=
  match idOf item with
  | none => out ++ [item]
  | some id =>
    match out.findIdx? fun x => idOf x = some id with
    | none => out ++ [item]
    | some i => if hasStatus item && !(out[i]?.any hasStatus) then out.set i item else out

def merge (answers : List (List T)) : List T := answers.flatten.foldl (place idOf hasStatus) []

/-- The items whose id comes up for the first time, or that have none. -/
def firsts : List I → List T → List T
  | _, [] => []
  | seen, x :: items =>
    match idOf x with
    | none => x :: firsts seen items
    | some id => if id ∈ seen then firsts seen items else x :: firsts (id :: seen) items

/-- The first item with the id of this one that has a status, or else this one. -/
def best (items : List T) (x : T) : T :=
  if idOf x = none then x else (items.find? fun y => idOf y = idOf x && hasStatus y).getD x

variable {idOf} {hasStatus}

theorem mem_firsts {seen : List I} {items : List T} {id : I} :
    some id ∈ (firsts idOf seen items).map idOf ↔ some id ∈ items.map idOf ∧ id ∉ seen := by
  induction items generalizing seen with
  | nil => simp [firsts]
  | cons x items ih =>
    unfold firsts
    cases hx : idOf x with
    | none =>
      dsimp only
      rw [List.map_cons, List.map_cons, List.mem_cons, List.mem_cons, hx, ih]
      simp
    | some i =>
      dsimp only
      by_cases hi : i ∈ seen
      · rw [if_pos hi, ih, List.map_cons, List.mem_cons, hx, Option.some_inj]
        refine and_congr_left fun hid => (or_iff_right ?_).symm
        rintro rfl
        exact hid hi
      · rw [if_neg hi, List.map_cons, List.map_cons, List.mem_cons, List.mem_cons, hx, ih, Option.some_inj, List.mem_cons, not_or]
        by_cases hid : id = i
        · simp [hid, hi]
        · simp [hid]

theorem firsts_apart (seen : List I) (items : List T) :
    (firsts idOf seen items).Pairwise fun x y => idOf x = none ∨ idOf x ≠ idOf y := by
  induction items generalizing seen with
  | nil => exact List.Pairwise.nil
  | cons x items ih =>
    unfold firsts
    cases hx : idOf x with
    | none =>
      exact List.pairwise_cons.mpr ⟨fun y _ => Or.inl hx, ih seen⟩
    | some i =>
      dsimp only
      split
      · exact ih seen
      · refine List.pairwise_cons.mpr ⟨fun y hy => Or.inr fun heq => ?_, ih _⟩
        have hin : some i ∈ (firsts idOf (i :: seen) items).map idOf := List.mem_map.mpr ⟨y, hy, by rw [← heq, hx]⟩
        exact (mem_firsts.mp hin).2 (List.mem_cons.mpr (Or.inl rfl))

theorem firsts_sublist (seen : List I) (items : List T) : (firsts idOf seen items).Sublist items := by
  induction items generalizing seen with
  | nil => exact List.Sublist.refl _
  | cons x items ih =>
    unfold firsts
    cases idOf x with
    | none => exact (ih seen).cons_cons x
    | some i =>
      dsimp only
      split
      · exact (ih seen).cons x
      · exact (ih _).cons_cons x

theorem firsts_snoc_none {x : T} (hx : idOf x = none) (seen : List I) (items : List T) :
    firsts idOf seen (items ++ [x]) = firsts idOf seen items ++ [x] := by
  induction items generalizing seen with
  | nil => simp [firsts, hx]
  | cons y items ih =>
    rw [List.cons_append]
    unfold firsts
    cases idOf y with
    | none =>
      dsimp only
      rw [ih, List.cons_append]
    | some i =>
      dsimp only
      split <;> simp [ih]

theorem firsts_snoc_some {x : T} {id : I} (hx : idOf x = some id) (seen : List I) (items : List T) :
    firsts idOf seen (items ++ [x]) =
      firsts idOf seen items ++ if id ∈ seen ∨ some id ∈ items.map idOf then [] else [x] := by
  induction items generalizing seen with
  | nil => by_cases hid : id ∈ seen <;> simp [firsts, hx, hid]
  | cons y items ih =>
    rw [List.cons_append]
    unfold firsts
    cases hy : idOf y with
    | none =>
      dsimp only
      rw [ih, List.map_cons, hy, List.cons_append]
      simp
    | some i =>
      dsimp only
      rw [List.map_cons, hy]
      by_cases hi : i ∈ seen
      · rw [if_pos hi, if_pos hi, ih]
        congr 1
        refine if_congr ?_ rfl rfl
        rw [List.mem_cons, Option.some_inj]
        constructor
        · rintro (h | h)
          · exact Or.inl h
          · exact Or.inr (Or.inr h)
        · rintro (h | rfl | h)
          · exact Or.inl h
          · exact Or.inl hi
          · exact Or.inr h
      · rw [if_neg hi, if_neg hi, ih, List.cons_append]
        congr 2
        refine if_congr ?_ rfl rfl
        rw [List.mem_cons, List.mem_cons, Option.some_inj]
        exact (or_congr_left or_comm).trans or_assoc

theorem idOf_best (items : List T) (x : T) : idOf (best idOf hasStatus items x) = idOf x := by
  unfold best
  split
  · rfl
  · cases hfind : items.find? fun y => idOf y = idOf x && hasStatus y with
    | none => rfl
    | some y =>
      have hy := List.find?_some hfind
      rw [Bool.and_eq_true, decide_eq_true_eq] at hy
      exact hy.1

theorem best_snoc (items : List T) (x y : T) : best idOf hasStatus (items ++ [x]) y =
    if idOf x = idOf y ∧ hasStatus x = true ∧ (items.find? fun z => idOf z = idOf y && hasStatus z) = none then
      (if idOf y = none then y else x)
    else best idOf hasStatus items y := by
  unfold best
  by_cases hy : idOf y = none
  · rw [if_pos hy, if_pos hy, if_pos hy]
    split <;> rfl
  · rw [if_neg hy, if_neg hy, if_neg hy, List.find?_append]
    cases hfind : items.find? fun z => idOf z = idOf y && hasStatus z with
    | some z => simp
    | none =>
      by_cases hx : idOf x = idOf y
      · by_cases hstatus : hasStatus x = true <;> simp [hx, hstatus]
      · simp [hx]

theorem best_status {items : List T} {y : T} (hy : y ∈ items) (hid : idOf y ≠ none) :
    hasStatus (best idOf hasStatus items y) = false ↔ (items.find? fun z => idOf z = idOf y && hasStatus z) = none := by
  unfold best
  rw [if_neg hid]
  cases hfind : items.find? fun z => idOf z = idOf y && hasStatus z with
  | some z =>
    have hz := List.find?_some hfind
    rw [Bool.and_eq_true] at hz
    simp [hz.2]
  | none =>
    have hnot := List.find?_eq_none.mp hfind y hy
    simpa using hnot

theorem place_best {items : List T} {x : T} {id : I} (hx : idOf x = some id) (hin : some id ∈ items.map idOf) :
    place idOf hasStatus ((firsts idOf [] items).map (best idOf hasStatus items)) x =
      (firsts idOf [] items).map (best idOf hasStatus (items ++ [x])) := by
  have hfirst : some id ∈ (firsts idOf [] items).map idOf := mem_firsts.mpr ⟨hin, List.not_mem_nil⟩
  unfold place
  rw [hx]
  dsimp only
  cases hfind : ((firsts idOf [] items).map (best idOf hasStatus items)).findIdx? fun z => idOf z = some id with
  | none =>
    obtain ⟨y, hy, hyid⟩ := List.mem_map.mp hfirst
    have hnone := List.findIdx?_eq_none_iff.mp hfind _ (List.mem_map.mpr ⟨y, hy, rfl⟩)
    rw [@idOf_best T I _ idOf hasStatus, hyid] at hnone
    simp at hnone
  | some i =>
    obtain ⟨hlength, hi, -⟩ := List.findIdx?_eq_some_iff_getElem.mp hfind
    rw [List.length_map] at hlength
    rw [List.getElem_map, @idOf_best T I _ idOf hasStatus, decide_eq_true_eq] at hi
    have hmem : (firsts idOf [] items)[i] ∈ items := (firsts_sublist [] items).subset (List.getElem_mem hlength)
    have hstatus := @best_status T I _ idOf hasStatus _ _ hmem (by rw [hi]; simp)
    have hkeep : ∀ j y, (firsts idOf [] items)[j]? = some y → j ≠ i →
        best idOf hasStatus (items ++ [x]) y = best idOf hasStatus items y := fun j y hj hne => by
      rw [best_snoc, if_neg]
      rintro ⟨hid, -, -⟩
      rw [hx] at hid
      obtain ⟨hjlength, rfl⟩ := List.getElem?_eq_some_iff.mp hj
      have hpairs := List.pairwise_iff_getElem.mp (@firsts_apart T I _ idOf [] items)
      rcases Nat.lt_or_gt_of_ne hne with hlt | hlt
      · rcases hpairs j i hjlength hlength hlt with h | h
        · rw [h] at hid
          cases hid
        · exact h (hid.symm.trans hi.symm)
      · rcases hpairs i j hlength hjlength hlt with h | h
        · rw [h] at hi
          cases hi
        · exact h (hi.trans hid)
    have hnew : best idOf hasStatus (items ++ [x]) (firsts idOf [] items)[i] =
        if hasStatus x = true ∧ hasStatus (best idOf hasStatus items (firsts idOf [] items)[i]) = false then x
        else best idOf hasStatus items (firsts idOf [] items)[i] := by
      rw [best_snoc, hi]
      rw [hi] at hstatus
      simp [hx, hstatus]
    have hout : ((firsts idOf [] items).map (best idOf hasStatus items))[i]? =
        some (best idOf hasStatus items (firsts idOf [] items)[i]) := by
      rw [List.getElem?_map, List.getElem?_eq_getElem hlength]
      rfl
    dsimp only
    refine List.ext_getElem? fun j => ?_
    rw [hout, Option.any_some, List.getElem?_map]
    by_cases hj : j = i
    · subst hj
      rw [List.getElem?_eq_getElem hlength, Option.map_some, hnew]
      by_cases hswap : hasStatus x = true ∧ hasStatus (best idOf hasStatus items (firsts idOf [] items)[j]) = false
      · rw [if_pos hswap, if_pos (by simp [hswap]), List.getElem?_set_self (by rwa [List.length_map])]
      · rw [if_neg hswap, if_neg (by simpa using hswap), hout]
    · have hsame : ((firsts idOf [] items).map (best idOf hasStatus items))[j]? =
          (firsts idOf [] items)[j]?.map (best idOf hasStatus (items ++ [x])) := by
        rw [List.getElem?_map]
        cases hy : (firsts idOf [] items)[j]? with
        | none => rfl
        | some y =>
          rw [Option.map_some, Option.map_some, hkeep j y hy hj]
      rw [← hsame]
      split
      · exact List.getElem?_set_ne (Ne.symm hj)
      · rfl

theorem place_new {out : List T} {x : T} (hnew : ∀ id, idOf x = some id → some id ∉ out.map idOf) :
    place idOf hasStatus out x = out ++ [x] := by
  unfold place
  cases hx : idOf x with
  | none => rfl
  | some id =>
    have hnone : (out.findIdx? fun z => idOf z = some id) = none := List.findIdx?_eq_none_iff.mpr fun z hz => by
      refine decide_eq_false fun heq => hnew id hx (List.mem_map.mpr ⟨z, hz, heq⟩)
    simp only [hnone]

/-- The listing has each session once, where it first came up: as the first window tells it that has it open, or else as the
first one does. What has no id stays, and the order is that of the answers. -/
theorem merge_lists (answers : List (List T)) :
    merge idOf hasStatus answers = (firsts idOf [] answers.flatten).map (best idOf hasStatus answers.flatten) := by
  unfold merge
  generalize answers.flatten = items
  induction items using List.reverseRecOn with
  | nil => rfl
  | append_singleton items x ih =>
    rw [List.foldl_append, List.foldl_cons, List.foldl_nil, ih]
    have hold : ∀ y ∈ firsts idOf [] items, idOf x ≠ idOf y ∨ idOf y = none →
        best idOf hasStatus (items ++ [x]) y = best idOf hasStatus items y := fun y _ hne => by
      rw [best_snoc]
      rcases hne with hne | hne
      · exact if_neg fun h => hne h.1
      · unfold best
        simp [hne]
    have hids : ((firsts idOf [] items).map (best idOf hasStatus items)).map idOf = (firsts idOf [] items).map idOf := by
      rw [List.map_map]
      exact List.map_congr_left fun y _ => idOf_best items y
    cases hx : idOf x with
    | none =>
      rw [place_new fun id hid => (by rw [hx] at hid; cases hid), firsts_snoc_none hx, List.map_append]
      congr 1
      · refine List.map_congr_left fun y hy => (hold y hy ?_).symm
        rw [hx]
        cases idOf y with
        | none => exact Or.inr rfl
        | some i => exact Or.inl (by simp)
      · unfold best
        simp [hx]
    | some id =>
      rw [firsts_snoc_some hx]
      by_cases hin : some id ∈ items.map idOf
      · rw [if_pos (Or.inr hin), List.append_nil]
        exact place_best hx hin
      · rw [if_neg fun h => h.elim List.not_mem_nil hin, List.map_append]
        have hfirst : some id ∉ (firsts idOf [] items).map idOf := fun h => hin (mem_firsts.mp h).1
        rw [place_new fun i hi => (by rw [hx, Option.some_inj] at hi; rw [hids, ← hi]; exact hfirst)]
        congr 1
        · refine List.map_congr_left fun y hy => (hold y hy (Or.inl fun heq => ?_)).symm
          exact hfirst (List.mem_map.mpr ⟨y, hy, by rw [← heq, hx]⟩)
        · have hnone : (items.find? fun z => idOf z = idOf x && hasStatus z) = none := List.find?_eq_none.mpr fun z hz hand => by
            rw [Bool.and_eq_true, decide_eq_true_eq, hx] at hand
            exact hin (List.mem_map.mpr ⟨z, hz, hand.1⟩)
          rw [List.map_cons, List.map_nil, best_snoc, if_neg (by rw [hx]; simp : ¬ idOf x = none)]
          split
          · rfl
          · unfold best
            rw [if_neg (by rw [hx]; simp : ¬ idOf x = none), hnone]
            rfl

end

end Haruspex.Engine
