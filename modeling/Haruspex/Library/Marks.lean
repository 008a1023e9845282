import Mathlib.Data.List.Infix
import Mathlib.Data.Nat.Notation

/-! Cutting a list at the first occurrence of a mark, a word whose first letter does not come again in
it: no occurrence reaches across the place where a mark is put. -/
namespace Haruspex.Marks
set_option autoImplicit false

variable {α : Type} [DecidableEq α]

/-- What comes before the first occurrence of a word, and what comes after it. -/
def cut (word : List α) : List α → Option (List α × List α)
  | [] => if word = [] then some ([], []) else none
  | c :: text =>
    if word <+: c :: text then some ([], (c :: text).drop word.length)
    else (cut word text).map (fun parts => (c :: parts.1, parts.2))

variable {word before after text : List α} {x : α}

theorem cut_some (h : cut word text = some (before, after)) : text = before ++ word ++ after := by
  induction text generalizing before with
  | nil =>
    unfold cut at h
    split at h
    · rename_i hempty
      cases h
      simp [hempty]
    · cases h
  | cons c text ih =>
    unfold cut at h
    split at h
    · rename_i hhere
      cases h
      rw [List.nil_append]
      exact (List.prefix_iff_eq_append.mp hhere).symm
    · obtain ⟨⟨before', after'⟩, hrest, heq⟩ := Option.map_eq_some_iff.mp h
      cases heq
      rw [ih hrest]
      rfl

/-- It is the first occurrence. -/
theorem cut_first (hword : word ≠ []) (h : cut word text = some (before, after)) :
    ¬ word <:+: before := by
  induction text generalizing before with
  | nil =>
    unfold cut at h
    rw [if_neg hword] at h
    cases h
  | cons c text ih =>
    unfold cut at h
    split at h
    · cases h
      rwa [List.infix_nil]
    · rename_i hhere
      obtain ⟨⟨before', after'⟩, hrest, heq⟩ := Option.map_eq_some_iff.mp h
      cases heq
      rw [List.infix_cons_iff, not_or]
      refine ⟨fun hopens => hhere ?_, ih hrest⟩
      rw [cut_some hrest, List.append_assoc]
      exact hopens.trans (List.prefix_append (c :: before') _)

/-- The word starts at no earlier place. -/
theorem cut_earliest (h : cut word text = some (before, after)) {place : ℕ}
    (hplace : place < before.length) : ¬ word <+: text.drop place := by
  induction text generalizing before place with
  | nil =>
    unfold cut at h
    split at h
    · cases h
      exact absurd hplace (Nat.not_lt_zero place)
    · cases h
  | cons c text ih =>
    unfold cut at h
    split at h
    · cases h
      exact absurd hplace (Nat.not_lt_zero place)
    · rename_i hhere
      obtain ⟨⟨before', after'⟩, hrest, heq⟩ := Option.map_eq_some_iff.mp h
      cases heq
      cases place with
      | zero => exact hhere
      | succ place => exact ih hrest (Nat.lt_of_succ_lt_succ hplace)

theorem cut_eq_none_iff : cut word text = none ↔ ¬ word <:+: text := by
  induction text with
  | nil => simp [cut]
  | cons c text ih =>
    unfold cut
    rw [List.infix_cons_iff]
    by_cases hhere : word <+: c :: text
    · simp [hhere]
    · simp [hhere, ih]

/-- An occurrence that starts ahead of a place where the first letter of the word stands ends there. -/
theorem prefix_of_prefix_append (hx : x ∉ word) (hbefore : before ≠ [])
    (h : (x :: word) <+: before ++ x :: after) : (x :: word) <+: before := by
  cases List.prefix_or_prefix_of_prefix h (List.prefix_append before (x :: after)) with
  | inl hshort => exact hshort
  | inr hlong =>
    obtain ⟨rest, hrest⟩ := hlong
    rw [← hrest, List.prefix_append_right_inj] at h
    cases rest with
    | nil => rw [← hrest, List.append_nil]
    | cons y rest =>
      obtain ⟨rfl, -⟩ := List.cons_prefix_cons.mp h
      cases before with
      | nil => exact absurd rfl hbefore
      | cons z before =>
        rw [List.cons_append, List.cons_eq_cons] at hrest
        exact absurd (hrest.2 ▸ List.mem_append_right before List.mem_cons_self) hx

/-- A word with one letter at its start and nowhere else is found where it was put, unless it came
before. -/
theorem cut_append (hx : x ∉ word) (hnone : ¬ (x :: word) <:+: before) :
    cut (x :: word) (before ++ (x :: word) ++ after) = some (before, after) := by
  induction before with
  | nil =>
    unfold cut
    simp
  | cons c before ih =>
    rw [List.infix_cons_iff, not_or] at hnone
    have hlater : ¬ (x :: word) <+: c :: (before ++ (x :: word) ++ after) := by
      intro h
      rw [List.append_assoc] at h
      exact hnone.1 (prefix_of_prefix_append hx (List.cons_ne_nil c before) h)
    rw [List.cons_append, List.cons_append]
    unfold cut
    rw [if_neg hlater, ih hnone.2]
    rfl

/-- An occurrence in two parts, where the second starts with the first letter of the word, is in one of
them. -/
theorem infix_append_iff (hx : x ∉ word) :
    (x :: word) <:+: before ++ x :: after ↔
      (x :: word) <:+: before ∨ (x :: word) <:+: x :: after := by
  induction before with
  | nil => simp
  | cons c before ih =>
    have hhere : (x :: word) <+: c :: (before ++ x :: after) ↔ (x :: word) <+: c :: before := by
      constructor
      · exact fun h => prefix_of_prefix_append hx (List.cons_ne_nil c before) h
      · exact fun h => h.trans (List.prefix_append (c :: before) (x :: after))
    rw [List.cons_append, List.infix_cons_iff, List.infix_cons_iff, hhere, ih, or_assoc]

end Haruspex.Marks
