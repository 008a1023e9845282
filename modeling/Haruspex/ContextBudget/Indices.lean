import Haruspex.ContextBudget.Model

/-! The index lists the guard works with. -/
namespace Haruspex.ContextBudget
open JavaScript
set_option autoImplicit false

variable {p : ChatMessage → Bool} {messages : List ChatMessage}

theorem mem_indicesOf {i : ℕ} :
    i ∈ indicesOf p messages ↔ ∃ m, messages[i]? = some m ∧ p m = true := by
  rw [indicesOf, List.mem_filter, List.mem_range, Option.any_eq_true]
  constructor
  · exact fun h => h.2
  · intro ⟨m, hm, hp⟩
    exact ⟨(List.getElem?_eq_some_iff.mp hm).1, m, hm, hp⟩

theorem indicesOf_sorted (p : ChatMessage → Bool) (messages : List ChatMessage) :
    (indicesOf p messages).Pairwise (· < ·) :=
  List.pairwise_lt_range.filter _

theorem indicesOf_concat (m : ChatMessage) :
    indicesOf p (messages ++ [m]) =
      indicesOf p messages ++ if p m then [messages.length] else [] := by
  have hold : (List.range messages.length).filter (fun i => (messages ++ [m])[i]?.any p) =
      indicesOf p messages := by
    refine List.filter_congr ?_
    intro i hi
    rw [List.getElem?_append_left (List.mem_range.mp hi)]
  rw [indicesOf, List.length_append, List.length_singleton, List.range_succ, List.filter_append,
    hold, List.filter_singleton, List.getElem?_concat_length, Option.any_some]
  cases p m <;> rfl

theorem length_indicesOf (p : ChatMessage → Bool) (messages : List ChatMessage) :
    (indicesOf p messages).length = messages.countP p := by
  induction messages using List.reverseRecOn with
  | nil => rfl
  | append_singleton messages m ih =>
    rw [indicesOf_concat, List.length_append, List.countP_append, ih, List.countP_singleton]
    cases p m <;> rfl

theorem indicesOf_nil (h : ∀ m ∈ messages, p m = false) : indicesOf p messages = [] := by
  rw [List.eq_nil_iff_forall_not_mem]
  intro i hi
  obtain ⟨m, hm, hp⟩ := mem_indicesOf.mp hi
  rw [h m (List.mem_of_getElem? hm)] at hp
  cases hp

/-- A prefix of a sorted list has every element below one of its own. -/
theorem mem_of_lt_mem {kept all : List ℕ} {i j : ℕ} (hstart : kept <+: all)
    (hsorted : all.Pairwise (· < ·)) (hi : i ∈ all) (hj : j ∈ kept) (hlt : i < j) : i ∈ kept := by
  obtain ⟨rest, rfl⟩ := hstart
  rcases List.mem_append.mp hi with h | h
  · exact h
  · have hlt' := (List.pairwise_append.mp hsorted).2.2 j hj i h
    omega

theorem indicesOf_take (p : ChatMessage → Bool) (messages : List ChatMessage) (i : ℕ) :
    indicesOf p (messages.take i) <+: indicesOf p messages := by
  have hold : indicesOf p (messages.take i) =
      (List.range (messages.take i).length).filter (fun j => messages[j]?.any p) := by
    refine List.filter_congr ?_
    intro j hj
    rw [List.mem_range, List.length_take] at hj
    rw [List.getElem?_take_of_lt (by omega)]
  have hstart : List.range (messages.take i).length <+: List.range messages.length := by
    rw [List.length_take, ← List.take_range]
    exact List.take_prefix _ _
  rw [hold, indicesOf]
  exact hstart.filter _

/-- The messages before the last `n` that meet a condition have more than `n` of them from there
on. -/
theorem count_of_mem_take {n i : ℕ}
    (h : i ∈ (indicesOf p messages).take ((indicesOf p messages).length - n)) :
    n < (messages.drop i).countP p := by
  by_contra hfew
  have hcount : messages.countP p = (messages.take i).countP p + (messages.drop i).countP p := by
    rw [← List.countP_append, List.take_append_drop]
  have hstart : (indicesOf p messages).take ((indicesOf p messages).length - n) <+:
      indicesOf p (messages.take i) := by
    refine List.prefix_of_prefix_length_le (List.take_prefix _ _) (indicesOf_take p messages i) ?_
    rw [List.length_take, length_indicesOf, length_indicesOf]
    omega
  obtain ⟨m, hm, -⟩ := mem_indicesOf.mp (hstart.subset h)
  have hlt := (List.getElem?_eq_some_iff.mp hm).1
  rw [List.length_take] at hlt
  omega

theorem mem_take_of_count {n i : ℕ} (hi : i ∈ indicesOf p messages)
    (hmany : n < (messages.drop i).countP p) :
    i ∈ (indicesOf p messages).take ((indicesOf p messages).length - n) := by
  obtain ⟨m, hm, hp⟩ := mem_indicesOf.mp hi
  obtain ⟨hlt, hget⟩ := List.getElem?_eq_some_iff.mp hm
  have hcount : messages.countP p =
      (messages.take (i + 1)).countP p + (messages.drop (i + 1)).countP p := by
    rw [← List.countP_append, List.take_append_drop]
  have hstep : (messages.drop i).countP p = (messages.drop (i + 1)).countP p + 1 := by
    rw [List.drop_eq_getElem_cons hlt, hget, List.countP_cons_of_pos hp]
  have hstart : indicesOf p (messages.take (i + 1)) <+:
      (indicesOf p messages).take ((indicesOf p messages).length - n) := by
    refine List.prefix_of_prefix_length_le (indicesOf_take p messages (i + 1)) (List.take_prefix _ _) ?_
    rw [List.length_take, length_indicesOf, length_indicesOf]
    omega
  refine hstart.subset (mem_indicesOf.mpr ⟨m, ?_, hp⟩)
  rw [List.getElem?_take_of_lt (by omega)]
  exact hm

end Haruspex.ContextBudget
