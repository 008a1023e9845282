import Mathlib.Data.List.Sort
import Mathlib.Algebra.Order.Group.Defs
import Mathlib.Tactic.Abel

/-! Spans on a line: which of them overlap, and lines written as gaps and lengths. -/
namespace Haruspex.Spans
set_option autoImplicit false

/-! ## Neighbours and pairs of a list -/

section Pairs

variable {A : Type} {R : A → A → Prop} {l : List A}

theorem isChain_iff_getElem? :
    l.IsChain R ↔ ∀ (k : ℕ) (a b : A), l[k]? = some a → l[k + 1]? = some b → R a b := by
  rw [List.isChain_iff_getElem]
  constructor
  · intro h k a b ha hb
    obtain ⟨_, rfl⟩ := List.getElem?_eq_some_iff.mp ha
    obtain ⟨hk, rfl⟩ := List.getElem?_eq_some_iff.mp hb
    exact h k hk
  · intro h k hk
    exact h k _ _ (List.getElem?_eq_getElem (by omega)) (List.getElem?_eq_getElem hk)

theorem pairwise_iff_getElem? :
    l.Pairwise R ↔ ∀ (j k : ℕ) (a b : A), j < k → l[j]? = some a → l[k]? = some b → R a b := by
  rw [List.pairwise_iff_getElem]
  constructor
  · intro h j k a b hjk ha hb
    obtain ⟨hj, rfl⟩ := List.getElem?_eq_some_iff.mp ha
    obtain ⟨hk, rfl⟩ := List.getElem?_eq_some_iff.mp hb
    exact h j k hj hk hjk
  · intro h j k hj hk hjk
    exact h j k _ _ hjk (List.getElem?_eq_getElem hj) (List.getElem?_eq_getElem hk)

end Pairs

/-! ## Overlaps -/

section Overlaps

variable {A T : Type} [LinearOrder T] (lo hi : A → T)

/-- One ends where the other begins, or before. -/
def Apart (a b : A) : Prop := hi a ≤ lo b ∨ hi b ≤ lo a

variable {lo hi}

theorem Apart.symm {a b : A} (h : Apart lo hi a b) : Apart lo hi b a := Or.symm h

/-- Spans in order are apart when each ends before the next begins. -/
theorem Apart.before {a b : A} (h : Apart lo hi a b) (hle : lo a ≤ lo b) (hb : lo b < hi b) :
    hi a ≤ lo b := by
  cases h with
  | inl h => exact h
  | inr h => exact absurd (lt_of_lt_of_le hb h) (not_lt.mpr hle)

/-- Neighbours that do not overlap keep the spans between them apart too. -/
theorem pairwise_of_neighbours {l : List A} (hle : ∀ a ∈ l, lo a ≤ hi a)
    (h : l.IsChain (fun a b => hi a ≤ lo b)) : l.Pairwise (fun a b => hi a ≤ lo b) := by
  induction l with
  | nil => exact List.Pairwise.nil
  | cons a rest ih =>
    have hrest := ih (fun b hb => hle b (List.mem_cons_of_mem a hb)) (List.IsChain.of_cons h)
    refine List.pairwise_cons.mpr ⟨?_, hrest⟩
    cases rest with
    | nil => nofun
    | cons b rest =>
      have hab : hi a ≤ lo b := (List.isChain_cons_cons.mp h).1
      intro c hc
      cases List.mem_cons.mp hc with
      | inl hcb => rw [hcb]; exact hab
      | inr hc =>
        have hbc : hi b ≤ lo c := (List.pairwise_cons.mp hrest).1 c hc
        exact hab.trans ((hle b (by simp)).trans hbc)

variable {r : A → A → Prop} [DecidableRel r] [Std.Total r] [IsTrans A r]

/-- Sorted, it is enough that neighbours do not overlap. -/
theorem neighbours_insertionSort_iff {l : List A} (hr : ∀ a b, r a b → lo a ≤ lo b)
    (hlt : ∀ a ∈ l, lo a < hi a) :
    (l.insertionSort r).IsChain (fun a b => hi a ≤ lo b) ↔ l.Pairwise (Apart lo hi) := by
  have hperm := List.perm_insertionSort r l
  have hsorted := List.pairwise_insertionSort r l
  have hapart : (l.insertionSort r).Pairwise (Apart lo hi) ↔ l.Pairwise (Apart lo hi) :=
    hperm.pairwise_iff Apart.symm
  rw [← hapart]
  constructor
  · intro h
    have hle : ∀ a ∈ l.insertionSort r, lo a ≤ hi a :=
      fun a ha => (hlt a (hperm.mem_iff.mp ha)).le
    exact (pairwise_of_neighbours hle h).imp Or.inl
  · intro h
    have hboth := (h.and hsorted).imp_of_mem fun {a b} _ hb hab =>
      hab.1.before (hr a b hab.2) (hlt b (hperm.mem_iff.mp hb))
    exact hboth.isChain

end Overlaps

/-! ## Gaps and lengths -/

section Gaps

/-- A line is written as what lies on it and the gaps between. -/
inductive Cell (A T : Type) where
  | gap (size : T)
  | span (a : A)

variable {A T : Type} [AddCommGroup T] [LinearOrder T] (len : A → T)

/-- Where things lie that are read from `t` on. -/
def read : T → List (Cell A T) → List (T × A)
  | _, [] => []
  | t, .gap size :: rest => read (t + size) rest
  | t, .span a :: rest => (t, a) :: read (t + len a) rest

/-- What to write from `t` on. -/
def write : T → List (T × A) → List (Cell A T)
  | _, [] => []
  | t, (start, a) :: rest =>
    (if t < start then [.gap (start - t)] else []) ++ .span a :: write (start + len a) rest

/-- Nothing begins before `t`, or before what precedes it has ended. -/
def InLine : T → List (T × A) → Prop
  | _, [] => True
  | t, (start, a) :: rest => t ≤ start ∧ InLine (start + len a) rest

variable {len}

/-- What is in line is read back as it was. -/
theorem read_write {t : T} {l : List (T × A)} (h : InLine len t l) : read len t (write len t l) = l := by
  induction l generalizing t with
  | nil => rfl
  | cons x rest ih =>
    obtain ⟨start, a⟩ := x
    obtain ⟨hle, hrest⟩ := h
    unfold write
    by_cases hlt : t < start
    · rw [if_pos hlt]
      show read len (t + (start - t)) (.span a :: write len (start + len a) rest) = _
      have hstart : t + (start - t) = start := by abel
      rw [hstart]
      show (start, a) :: _ = _
      rw [ih hrest]
    · have hstart : t = start := le_antisymm hle (not_lt.mp hlt)
      rw [if_neg hlt, ← hstart]
      rw [← hstart] at hrest
      show (t, a) :: _ = _
      rw [ih hrest]

theorem inLine_of_pairwise {t : T} {l : List (T × A)} (ht : ∀ x ∈ l, t ≤ x.1)
    (h : l.Pairwise (fun x y => x.1 + len x.2 ≤ y.1)) : InLine len t l := by
  induction l generalizing t with
  | nil => trivial
  | cons x rest ih =>
    obtain ⟨hx, hrest⟩ := List.pairwise_cons.mp h
    exact ⟨ht x List.mem_cons_self, ih hx hrest⟩

end Gaps

end Haruspex.Spans
