import Mathlib.Data.List.Basic
import Mathlib.Order.Bounds.Defs
import Mathlib.Data.Nat.Notation
import Mathlib.Data.List.Infix

/-! Longest common subsequences: the recursion over two lists, and what it says of their common sublists. -/
namespace Haruspex.Subsequences
set_option autoImplicit false

/-- A sublist of a list with one more character at its end. -/
theorem sublist_snoc {α : Type} {a s : List α} {x : α} (h : s.Sublist (a ++ [x])) :
    s.Sublist a ∨ ∃ t, s = t ++ [x] ∧ t.Sublist a := by
  obtain ⟨t, u, rfl, ht, hu⟩ := List.sublist_append_iff.mp h
  rcases List.sublist_singleton.mp hu with rfl | rfl
  · exact .inl (by rwa [List.append_nil])
  · exact .inr ⟨t, rfl, ht⟩

variable {α : Type} [DecidableEq α]

/-- The length of a longest common subsequence. -/
def lcs : List α → List α → ℕ
  | [], _ => 0
  | _, [] => 0
  | x :: xs, y :: ys => if x = y then lcs xs ys + 1 else max (lcs xs (y :: ys)) (lcs (x :: xs) ys)
termination_by xs ys => xs.length + ys.length

/-- The lengths of the common subsequences. -/
def commonLengths (a b : List α) : Set ℕ := {n | ∃ s : List α, s.Sublist a ∧ s.Sublist b ∧ s.length = n}

variable {a b : List α}

@[simp] theorem lcs_nil_left (b : List α) : lcs [] b = 0 := by unfold lcs; rfl

@[simp] theorem lcs_nil_right (a : List α) : lcs a [] = 0 := by cases a <;> (unfold lcs; rfl)

theorem lcs_cons_same (x : α) (a b : List α) : lcs (x :: a) (x :: b) = lcs a b + 1 := by
  rw [lcs, if_pos rfl]

theorem lcs_cons_ne {x y : α} (h : x ≠ y) (a b : List α) :
    lcs (x :: a) (y :: b) = max (lcs a (y :: b)) (lcs (x :: a) b) := by
  rw [lcs, if_neg h]

/-! ## No common subsequence is longer, and one is as long -/

theorem length_le_lcs {s : List α} (ha : s.Sublist a) (hb : s.Sublist b) : s.length ≤ lcs a b := by
  induction a, b using lcs.induct generalizing s with
  | case1 b => simp [List.sublist_nil.mp ha]
  | case2 a => simp [List.sublist_nil.mp hb]
  | case3 xs x ys ih =>
    rw [lcs_cons_same]
    cases s with
    | nil => exact Nat.zero_le _
    | cons c s =>
      -- Whatever the first character matches, the others are common to both tails.
      have hrest : s.length ≤ lcs xs ys := by
        refine ih ?_ ?_
        · cases ha with
          | cons _ h => exact (List.sublist_cons_self c s).trans h
          | cons_cons _ h => exact h
        · cases hb with
          | cons _ h => exact (List.sublist_cons_self c s).trans h
          | cons_cons _ h => exact h
      simp only [List.length_cons]
      omega
  | case4 x xs y ys hne ih1 ih2 =>
    rw [lcs_cons_ne hne]
    cases ha with
    | cons _ h => exact Nat.le_trans (ih1 h hb) (Nat.le_max_left _ _)
    | cons_cons _ h =>
      cases hb with
      | cons _ h' => exact Nat.le_trans (ih2 (h.cons_cons x) h') (Nat.le_max_right _ _)
      | cons_cons _ h' => exact absurd rfl hne

theorem exists_common (a b : List α) : ∃ s : List α, s.Sublist a ∧ s.Sublist b ∧ s.length = lcs a b := by
  induction a, b using lcs.induct with
  | case1 b => exact ⟨[], List.Sublist.refl _, List.nil_sublist _, by simp⟩
  | case2 a => exact ⟨[], List.nil_sublist _, List.Sublist.refl _, by simp⟩
  | case3 xs x ys ih =>
    obtain ⟨s, ha, hb, hlen⟩ := ih
    exact ⟨x :: s, ha.cons_cons x, hb.cons_cons x, by rw [lcs_cons_same, List.length_cons, hlen]⟩
  | case4 x xs y ys hne ih1 ih2 =>
    rw [lcs_cons_ne hne]
    rcases Nat.le_total (lcs xs (y :: ys)) (lcs (x :: xs) ys) with hle | hle
    · obtain ⟨s, ha, hb, hlen⟩ := ih2
      exact ⟨s, ha, hb.cons y, by rw [hlen, Nat.max_eq_right hle]⟩
    · obtain ⟨s, ha, hb, hlen⟩ := ih1
      exact ⟨s, ha.cons x, hb, by rw [hlen, Nat.max_eq_left hle]⟩

theorem isGreatest_lcs (a b : List α) : IsGreatest (commonLengths a b) (lcs a b) := by
  refine ⟨exists_common a b, ?_⟩
  rintro n ⟨s, ha, hb, rfl⟩
  exact length_le_lcs ha hb

theorem lcs_le_left (a b : List α) : lcs a b ≤ a.length := by
  obtain ⟨s, ha, -, hlen⟩ := exists_common a b
  exact hlen ▸ ha.length_le

/-! ## Common ends -/

theorem lcs_append_left (front a b : List α) : lcs (front ++ a) (front ++ b) = front.length + lcs a b := by
  induction front with
  | nil => simp
  | cons x front ih =>
    rw [List.cons_append, List.cons_append, lcs_cons_same, ih, List.length_cons]
    omega

theorem lcs_snoc (x : α) (a b : List α) : lcs (a ++ [x]) (b ++ [x]) = lcs a b + 1 := by
  apply Nat.le_antisymm
  · obtain ⟨s, ha, hb, hlen⟩ := exists_common (a ++ [x]) (b ++ [x])
    rw [← hlen]
    rcases sublist_snoc ha with ha' | ⟨t, rfl, ht⟩
    · rcases sublist_snoc hb with hb' | ⟨u, rfl, hu⟩
      · exact Nat.le_succ_of_le (length_le_lcs ha' hb')
      · have hu' := length_le_lcs ((List.sublist_append_left u [x]).trans ha') hu
        simpa using hu'
    · have ht' : t.Sublist b := List.append_sublist_append_right [x] |>.mp hb
      simpa using length_le_lcs ht ht'
  · obtain ⟨s, ha, hb, hlen⟩ := exists_common a b
    rw [← hlen]
    have h := length_le_lcs (ha.append_right [x]) (hb.append_right [x])
    simpa using h

theorem lcs_append_right (back a b : List α) : lcs (a ++ back) (b ++ back) = lcs a b + back.length := by
  induction back generalizing a b with
  | nil => simp
  | cons x back ih =>
    rw [List.append_cons a, List.append_cons b, ih, lcs_snoc, List.length_cons]
    omega

end Haruspex.Subsequences

/-! How often a word occurs in a list: at how many places it starts. -/
namespace Haruspex.Occurrences
set_option autoImplicit false

variable {α : Type} [DecidableEq α]

def occurrences (w : List α) : List α → ℕ
  | [] => 0
  | a :: l => (if w <+: a :: l then 1 else 0) + occurrences w l

variable {w a b l : List α} {c : α}

theorem occurrences_eq_zero_iff (hw : w ≠ []) : occurrences w l = 0 ↔ ¬ w <:+: l := by
  induction l with
  | nil => simp [occurrences, hw]
  | cons x l ih =>
    rw [occurrences, List.infix_cons_iff]
    by_cases h : w <+: x :: l
    · simp [h]
    · simp [h, ih]

theorem occurrences_le_append (a b : List α) :
    occurrences w a + occurrences w b ≤ occurrences w (a ++ b) := by
  induction a with
  | nil => simp [occurrences]
  | cons x a ih =>
    rw [List.cons_append, occurrences, occurrences]
    by_cases h : w <+: x :: a
    · have hlong : w <+: x :: (a ++ b) := h.trans (List.prefix_append (x :: a) b)
      rw [if_pos h, if_pos hlong]
      omega
    · rw [if_neg h]
      omega

theorem occurrences_prefix (h : a <+: l) : occurrences w a ≤ occurrences w l := by
  obtain ⟨b, rfl⟩ := h
  have hle := occurrences_le_append (w := w) a b
  omega

theorem occurrences_suffix (h : b <:+ l) : occurrences w b ≤ occurrences w l := by
  obtain ⟨a, rfl⟩ := h
  have hle := occurrences_le_append (w := w) a b
  omega

/-- No occurrence is lost or made where two lists meet, if none reaches across. -/
theorem occurrences_append (hw : ∀ u v, w = u ++ v → u ≠ [] → v ≠ [] → u <:+ a → ¬ v <+: b) :
    occurrences w (a ++ b) = occurrences w a + occurrences w b := by
  induction a with
  | nil => simp [occurrences]
  | cons x a ih =>
    have hrest := ih (fun u v e hu hv hsuffix =>
      hw u v e hu hv (hsuffix.trans (List.suffix_cons x a)))
    have hhead : w <+: x :: (a ++ b) ↔ w <+: x :: a := by
      constructor
      · intro h
        rcases List.prefix_or_prefix_of_prefix h (List.prefix_append (x :: a) b) with h' | h'
        · exact h'
        · obtain ⟨v, rfl⟩ := h'
          by_cases hv : v = []
          · rw [hv, List.append_nil]
          · have hmeet := hw (x :: a) v rfl (List.cons_ne_nil x a) hv (List.suffix_refl _)
            rw [← List.cons_append, List.prefix_append_right_inj] at h
            exact absurd h hmeet
      · exact fun h => h.trans (List.prefix_append (x :: a) b)
    rw [List.cons_append, occurrences, occurrences, hrest, if_congr hhead rfl rfl]
    omega

/-- An element the word does not have keeps its occurrences apart. -/
theorem occurrences_sep (hw : w ≠ []) (hc : c ∉ w) :
    occurrences w (a ++ c :: b) = occurrences w a + occurrences w b := by
  rw [occurrences_append, occurrences]
  · have hno : ¬ w <+: c :: b := by
      intro h
      cases w with
      | nil => exact hw rfl
      | cons x w =>
        obtain ⟨rfl, -⟩ := List.cons_prefix_cons.mp h
        exact hc List.mem_cons_self
    rw [if_neg hno, Nat.zero_add]
  · intro u v e hu hv _ hpre
    cases v with
    | nil => exact hv rfl
    | cons x v =>
      obtain ⟨rfl, -⟩ := List.cons_prefix_cons.mp hpre
      exact hc (e ▸ List.mem_append_right u List.mem_cons_self)

theorem occurrences_concat (hw : w ≠ []) (hc : c ∉ w) :
    occurrences w (a ++ [c]) = occurrences w a := by
  rw [occurrences_sep hw hc]
  rfl

theorem occurrences_cons (hw : w ≠ []) (hc : c ∉ w) :
    occurrences w (c :: b) = occurrences w b := by
  have h := occurrences_sep (a := []) (b := b) hw hc
  rw [List.nil_append] at h
  rw [h, occurrences, Nat.zero_add]

theorem occurrences_replicate (hw : w ≠ []) (hc : c ∉ w) (n : ℕ) :
    occurrences w (List.replicate n c ++ b) = occurrences w b := by
  induction n with
  | zero => rfl
  | succ n ih =>
    rw [List.replicate_succ, List.cons_append, occurrences_cons hw hc, ih]

theorem occurrences_of_not_mem (hc : c ∈ w) (hl : c ∉ l) : occurrences w l = 0 := by
  have hw : w ≠ [] := List.ne_nil_of_mem hc
  rw [occurrences_eq_zero_iff hw]
  exact fun h => hl (h.subset hc)

theorem occurrences_of_short (h : l.length < w.length) : occurrences w l = 0 := by
  have hw : w ≠ [] := List.ne_nil_of_length_pos (by omega)
  rw [occurrences_eq_zero_iff hw]
  intro hin
  have hle := hin.length_le
  omega

end Haruspex.Occurrences
