import Mathlib.Data.List.Infix
import Mathlib.Data.Nat.Notation

/-! Putting a mark in the place of parts of a list. A word that has neither the first nor the last letter of the
mark is nowhere in what comes of it, if it was nowhere before. -/
namespace Haruspex.Masking
set_option autoImplicit false

variable {α : Type}

/-- Parts of a list, one after another, with the mark in their place. -/
inductive Masked (mark : List α) : List α → List α → Prop
  | nil : Masked mark [] []
  | keep {a b : List α} (x : α) (h : Masked mark a b) : Masked mark (x :: a) (x :: b)
  | hide {a b : List α} (part : List α) (h : Masked mark a b) : Masked mark (part ++ a) (mark ++ b)

variable {mark a b c word before after : List α} {x : α}

namespace Masked

theorem refl (a : List α) : Masked mark a a := by
  induction a with
  | nil => exact .nil
  | cons x a ih => exact .keep x ih

theorem append (h : Masked mark a b) {a' b' : List α} (h' : Masked mark a' b') :
    Masked mark (a ++ a') (b ++ b') := by
  induction h with
  | nil => exact h'
  | keep x _ ih => exact .keep x ih
  | hide part _ ih =>
    rw [List.append_assoc, List.append_assoc]
    exact .hide part ih

theorem single (before part after : List α) :
    Masked mark (before ++ part ++ after) (before ++ mark ++ after) := by
  have hpart : Masked mark (part ++ after) (mark ++ after) := .hide part (refl after)
  rw [List.append_assoc, List.append_assoc]
  exact (refl before).append hpart

end Masked

/-! ## Words on one side -/

/-- A word ends before a letter that is not in it. -/
theorem prefix_of_prefix_append (before : List α) (hx : x ∉ word) (h : word <+: before ++ x :: after) : word <+: before := by
  rcases List.prefix_or_prefix_of_prefix h (List.prefix_append before (x :: after)) with hshort | ⟨rest, rfl⟩
  · exact hshort
  · rw [List.prefix_append_right_inj] at h
    cases rest with
    | nil => simp
    | cons y rest =>
      obtain ⟨rfl, -⟩ := List.cons_prefix_cons.mp h
      simp at hx

theorem infix_append_iff (hx : x ∉ word) (hword : word ≠ []) :
    word <:+: before ++ x :: after ↔ word <:+: before ∨ word <:+: after := by
  constructor
  · intro h
    induction before with
    | nil =>
      rw [List.nil_append, List.infix_cons_iff] at h
      rcases h with h | h
      · have hnil := prefix_of_prefix_append [] hx h
        rw [List.prefix_nil] at hnil
        exact absurd hnil hword
      · exact .inr h
    | cons y before ih =>
      rw [List.cons_append, List.infix_cons_iff] at h
      rcases h with h | h
      · exact .inl (prefix_of_prefix_append (y :: before) hx h).isInfix
      · exact (ih h).imp_left fun hinfix => hinfix.trans (List.suffix_cons y before).isInfix
  · rintro (h | h)
    · exact h.trans (List.prefix_append before (x :: after)).isInfix
    · exact h.trans ⟨before ++ [x], [], by simp⟩

/-! ## What a mark hides -/

section Hidden

variable {first last : α} (hfirst : mark.head? = some first) (hlast : mark.getLast? = some last)
  (hfirstWord : first ∉ word) (hlastWord : last ∉ word)

include hfirst hfirstWord in
/-- A word ahead of a mark was there before. -/
theorem prefix_of_masked (h : Masked mark a b) (hahead : word <+: b) : word <+: a := by
  induction h generalizing word with
  | nil => exact hahead
  | keep x _ ih =>
    cases word with
    | nil => exact List.nil_prefix
    | cons y word =>
      obtain ⟨rfl, hrest⟩ := List.cons_prefix_cons.mp hahead
      exact List.cons_prefix_cons.mpr ⟨rfl, ih (fun hmem => hfirstWord (List.mem_cons_of_mem _ hmem)) hrest⟩
  | hide part _ _ =>
    cases word with
    | nil => exact List.nil_prefix
    | cons y word =>
      obtain ⟨rest, rfl⟩ := List.head?_eq_some_iff.mp hfirst
      obtain ⟨rfl, -⟩ := List.cons_prefix_cons.mp hahead
      exact absurd List.mem_cons_self hfirstWord

include hlast hlastWord in
/-- A word after a mark, or within it. -/
theorem infix_mark_append (hword : word ≠ []) (h : word <:+: mark ++ b) : word <:+: mark ∨ word <:+: b := by
  obtain ⟨front, rfl⟩ := List.getLast?_eq_some_iff.mp hlast
  rw [List.append_assoc, List.singleton_append, infix_append_iff hlastWord hword] at h
  exact h.imp_left fun hinfix => hinfix.trans (List.prefix_append front [last]).isInfix

include hfirst hlast hfirstWord hlastWord in
/-- No word comes to be where parts are hidden. -/
theorem not_infix_of_masked (hword : word ≠ []) (hmark : ¬ word <:+: mark) (h : Masked mark a b)
    (hno : ¬ word <:+: a) : ¬ word <:+: b := by
  induction h with
  | nil => exact hno
  | keep x h ih =>
    rw [List.infix_cons_iff, not_or] at hno ⊢
    exact ⟨fun hahead => hno.1 (prefix_of_masked hfirst hfirstWord (.keep x h) hahead), ih hno.2⟩
  | @hide a b part h ih =>
    intro hinfix
    rcases infix_mark_append hlast hlastWord hword hinfix with hin | hin
    · exact hmark hin
    · exact ih (fun hpart => hno (hpart.trans (List.suffix_append part a).isInfix)) hin

end Hidden

/-! ## Every occurrence -/

variable [DecidableEq α]

/-- The mark in the place of each occurrence of a word, from the left; some letters still to be passed over. -/
def replaceFrom (word mark : List α) : ℕ → List α → List α
  | _, [] => []
  | skip + 1, _ :: text => replaceFrom word mark skip text
  | 0, x :: text =>
    if word <+: x :: text then mark ++ replaceFrom word mark (word.length - 1) text
    else x :: replaceFrom word mark 0 text

def replaceAll (word mark text : List α) : List α := replaceFrom word mark 0 text

theorem replaceFrom_drop (word mark text : List α) (skip : ℕ) :
    replaceFrom word mark skip text = replaceFrom word mark 0 (text.drop skip) := by
  induction skip generalizing text with
  | zero => rfl
  | succ skip ih =>
    cases text with
    | nil => rfl
    | cons x text => exact ih text

theorem replaceFrom_masked (word mark text : List α) (skip : ℕ) :
    Masked mark (text.drop skip) (replaceFrom word mark skip text) := by
  induction text generalizing skip with
  | nil =>
    rw [List.drop_nil]
    cases skip <;> exact .nil
  | cons x text ih =>
    cases skip with
    | succ skip => exact ih skip
    | zero =>
      rw [List.drop_zero]
      unfold replaceFrom
      split
      · rename_i hword
        have hpart := Masked.hide (x :: text.take (word.length - 1)) (ih (word.length - 1))
        rwa [List.cons_append, List.take_append_drop] at hpart
      · exact .keep x (ih 0)

theorem replaceAll_masked (word mark text : List α) : Masked mark text (replaceAll word mark text) :=
  replaceFrom_masked word mark text 0

/-- The word is nowhere in what comes of it. -/
theorem not_infix_replaceAll {first last : α} (hfirst : mark.head? = some first) (hlast : mark.getLast? = some last)
    (hfirstWord : first ∉ word) (hlastWord : last ∉ word) (hword : word ≠ []) (hmark : ¬ word <:+: mark)
    (text : List α) : ¬ word <:+: replaceAll word mark text := by
  suffices h : ∀ skip, ¬ word <:+: replaceFrom word mark skip text from h 0
  induction text with
  | nil =>
    intro skip
    have hnil : replaceFrom word mark skip [] = [] := by cases skip <;> rfl
    rw [hnil, List.infix_nil]
    exact hword
  | cons x text ih =>
    intro skip
    cases skip with
    | succ skip => exact ih skip
    | zero =>
      unfold replaceFrom
      split
      · intro hinfix
        rcases infix_mark_append hlast hlastWord hword hinfix with hin | hin
        · exact hmark hin
        · exact ih _ hin
      · rename_i hhere
        have hmasked : Masked mark (x :: text) (x :: replaceFrom word mark 0 text) :=
          .keep x (replaceFrom_masked word mark text 0)
        rw [List.infix_cons_iff, not_or]
        exact ⟨fun hahead => hhere (prefix_of_masked hfirst hfirstWord hmasked hahead), ih 0⟩

theorem replaceAll_of_not_infix {text : List α} (h : ¬ word <:+: text) : replaceAll word mark text = text := by
  induction text with
  | nil => rfl
  | cons x text ih =>
    rw [List.infix_cons_iff, not_or] at h
    rw [replaceAll, replaceFrom, if_neg h.1]
    exact congrArg (List.cons x) (ih h.2)

/-- A letter that is not in the word parts the text. -/
theorem replaceAll_append (hx : x ∉ word) (hword : word ≠ []) (before after : List α) :
    replaceAll word mark (before ++ x :: after) =
      replaceAll word mark before ++ x :: replaceAll word mark after := by
  induction hn : before.length using Nat.strong_induction_on generalizing before with
  | _ n ih =>
    cases before with
    | nil =>
      have hhere : ¬ word <+: x :: after := by
        intro h
        have hnil := prefix_of_prefix_append [] hx h
        exact hword (List.prefix_nil.mp hnil)
      rw [List.nil_append, replaceAll, replaceFrom, if_neg hhere]
      rfl
    | cons y before =>
      have hiff : word <+: y :: (before ++ x :: after) ↔ word <+: y :: before :=
        ⟨fun h => prefix_of_prefix_append (y :: before) hx h,
          fun h => h.trans (List.prefix_append (y :: before) (x :: after))⟩
      rw [List.cons_append, replaceAll, replaceAll, replaceFrom, replaceFrom]
      by_cases hhere : word <+: y :: before
      · have hlength := hhere.length_le
        rw [List.length_cons] at hlength
        have hrest := ih (before.drop (word.length - 1)).length
          (by rw [← hn, List.length_drop, List.length_cons]; omega) (before.drop (word.length - 1)) rfl
        rw [if_pos (hiff.mpr hhere), if_pos hhere, replaceFrom_drop, replaceFrom_drop word mark before,
          List.drop_append_of_le_length (by omega)]
        rw [replaceAll, replaceAll] at hrest
        rw [hrest, List.append_assoc]
      · have hrest := ih before.length (by rw [← hn, List.length_cons]; omega) before rfl
        rw [if_neg fun h => hhere (hiff.mp h), if_neg hhere, List.cons_append]
        exact congrArg (List.cons y) hrest

end Haruspex.Masking
