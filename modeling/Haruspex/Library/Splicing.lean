import Mathlib.Algebra.GroupWithZero.Nat
import Mathlib.Data.List.Sort
import Mathlib.Algebra.Order.BigOperators.Group.List

/-! Replacing ranges of one text. Edits that lie apart may be made one at a time from the last to the first, or all
together from the first to the last; what no edit touches only moves. -/
namespace Haruspex.Splicing
set_option autoImplicit false

variable {α : Type}

/-- The text from `start` to `stop` is replaced. -/
structure Edit (α : Type) where
  start : ℕ
  stop : ℕ
  text : List α
deriving DecidableEq

/-- One ends before the other starts. -/
def Apart (a b : Edit α) : Prop := a.stop ≤ b.start ∨ b.stop ≤ a.start

instance (a b : Edit α) : Decidable (Apart a b) := inferInstanceAs (Decidable (_ ∨ _))

/-- Forward, and within the text. -/
def Fits (text : List α) (e : Edit α) : Prop := e.start ≤ e.stop ∧ e.stop ≤ text.length

instance (text : List α) (e : Edit α) : Decidable (Fits text e) := inferInstanceAs (Decidable (_ ∧ _))

theorem Apart.symm {a b : Edit α} (h : Apart a b) : Apart b a := Or.symm h

def replaceOne (e : Edit α) (text : List α) : List α := text.take e.start ++ e.text ++ text.drop e.stop

/-- One edit at a time, the last of them first. -/
def replaceAll (edits : List (Edit α)) (text : List α) : List α := edits.foldr replaceOne text

/-! ## In order -/

/-- Each edit ends before the next ones start. -/
def InOrder (edits : List (Edit α)) : Prop := edits.Pairwise fun a b => a.stop ≤ b.start

/-- All together: what lies between two edits is copied. -/
def weave (text : List α) : ℕ → List (Edit α) → List α
  | since, [] => text.drop since
  | since, e :: edits => (text.drop since).take (e.start - since) ++ e.text ++ weave text e.stop edits

theorem take_slice {text : List α} {since start : ℕ} (h : since ≤ start) :
    text.take since ++ (text.drop since).take (start - since) = text.take start := by
  have hsplit : start = since + (start - since) := by omega
  conv_rhs => rw [hsplit, List.take_add]

/-- What is woven from `since` on is what one edit after the other leaves, after the text up to there. -/
theorem replaceAll_eq_weave {text : List α} {edits : List (Edit α)} (horder : InOrder edits)
    (hfits : ∀ e ∈ edits, Fits text e) {since : ℕ} (hsince : ∀ e ∈ edits, since ≤ e.start) :
    replaceAll edits text = text.take since ++ weave text since edits := by
  induction edits generalizing since with
  | nil => exact (List.take_append_drop since text).symm
  | cons e edits ih =>
    obtain ⟨hnext, horder⟩ := List.pairwise_cons.mp horder
    obtain ⟨hforward, hin⟩ := hfits e List.mem_cons_self
    have hrest := ih horder (fun x hx => hfits x (List.mem_cons_of_mem e hx)) hnext
    have hlength : (text.take e.stop).length = e.stop := List.length_take_of_le hin
    have htake : (text.take e.stop ++ weave text e.stop edits).take e.start = text.take e.start := by
      rw [List.take_append_of_le_length (by omega), List.take_take, Nat.min_eq_left hforward]
    have hdrop : (text.take e.stop ++ weave text e.stop edits).drop e.stop = weave text e.stop edits :=
      List.drop_left' hlength
    change replaceOne e (replaceAll edits text) =
      text.take since ++ ((text.drop since).take (e.start - since) ++ e.text ++ weave text e.stop edits)
    rw [hrest]
    unfold replaceOne
    rw [htake, hdrop, ← take_slice (hsince e List.mem_cons_self)]
    simp only [List.append_assoc]

theorem replaceAll_eq_weave_zero {text : List α} {edits : List (Edit α)} (horder : InOrder edits)
    (hfits : ∀ e ∈ edits, Fits text e) : replaceAll edits text = weave text 0 edits := by
  rw [replaceAll_eq_weave horder hfits (fun _ _ => Nat.zero_le _), List.take_zero, List.nil_append]

/-! ## What stays -/

/-- What edits that end up to `i` take out. -/
def removed (edits : List (Edit α)) (i : ℕ) : ℕ :=
  ((edits.filter fun e => e.stop ≤ i).map fun e => e.stop - e.start).sum

/-- What edits that end up to `i` put in. -/
def added (edits : List (Edit α)) (i : ℕ) : ℕ := ((edits.filter fun e => e.stop ≤ i).map fun e => e.text.length).sum

/-- Not within what an edit replaces. -/
def Untouched (edits : List (Edit α)) (i : ℕ) : Prop := ∀ e ∈ edits, i < e.start ∨ e.stop ≤ i

theorem counts_ahead {edits : List (Edit α)} {i : ℕ} (h : ∀ e ∈ edits, i < e.stop) :
    removed edits i = 0 ∧ added edits i = 0 := by
  have hnone : (edits.filter fun e => e.stop ≤ i) = [] := by
    rw [List.filter_eq_nil_iff]
    intro e he
    have hlt := h e he
    simp only [decide_eq_true_eq]
    omega
  unfold removed added
  rw [hnone]
  exact ⟨rfl, rfl⟩

theorem counts_past {e : Edit α} {edits : List (Edit α)} {i : ℕ} (h : e.stop ≤ i) :
    removed (e :: edits) i = e.stop - e.start + removed edits i ∧
      added (e :: edits) i = e.text.length + added edits i := by
  unfold removed added
  rw [List.filter_cons_of_pos (by simpa using h)]
  exact ⟨rfl, rfl⟩

theorem weave_keeps {text : List α} {edits : List (Edit α)} (horder : InOrder edits) (hfits : ∀ e ∈ edits, Fits text e)
    {since i : ℕ} (hsince : ∀ e ∈ edits, since ≤ e.start) (hi : since ≤ i) (hin : i < text.length)
    (huntouched : Untouched edits i) :
    ∃ j, j + removed edits i = i - since + added edits i ∧ (weave text since edits)[j]? = text[i]? := by
  induction edits generalizing since with
  | nil =>
    refine ⟨i - since, rfl, ?_⟩
    change (text.drop since)[i - since]? = text[i]?
    rw [List.getElem?_drop, Nat.add_sub_cancel' hi]
  | cons e edits ih =>
    obtain ⟨hnext, horder⟩ := List.pairwise_cons.mp horder
    have hstart := hsince e List.mem_cons_self
    obtain ⟨hforward, hend⟩ := hfits e List.mem_cons_self
    have hslice : ((text.drop since).take (e.start - since)).length = e.start - since := by
      rw [List.length_take, List.length_drop]
      omega
    change ∃ j, _ ∧ ((text.drop since).take (e.start - since) ++ e.text ++ weave text e.stop edits)[j]? = _
    rcases huntouched e List.mem_cons_self with hbefore | hpast
    · obtain ⟨hremoved, hadded⟩ := @counts_ahead α (e :: edits) i (by
        intro x hx
        rcases List.mem_cons.mp hx with rfl | hx
        · omega
        · have hlater := hnext x hx
          have hx := (hfits x (List.mem_cons_of_mem e hx)).1
          omega)
      refine ⟨i - since, by omega, ?_⟩
      rw [List.append_assoc, List.getElem?_append_left (by omega), List.getElem?_take_of_lt (by omega),
        List.getElem?_drop, Nat.add_sub_cancel' hi]
    · obtain ⟨j, hj, hkept⟩ := ih horder (fun x hx => hfits x (List.mem_cons_of_mem e hx)) hnext hpast
        (fun x hx => huntouched x (List.mem_cons_of_mem e hx))
      obtain ⟨hremoved, hadded⟩ := @counts_past α e edits i hpast
      refine ⟨e.start - since + e.text.length + j, by omega, ?_⟩
      have hlength : ((text.drop since).take (e.start - since) ++ e.text).length = e.start - since + e.text.length := by
        rw [List.length_append, hslice]
      rw [List.getElem?_append_right (by omega), hlength, Nat.add_sub_cancel_left]
      exact hkept

theorem removed_perm {edits edits' : List (Edit α)} (h : edits.Perm edits') (i : ℕ) : removed edits i = removed edits' i :=
  ((h.filter _).map _).sum_eq

theorem added_perm {edits edits' : List (Edit α)} (h : edits.Perm edits') (i : ℕ) : added edits i = added edits' i :=
  ((h.filter _).map _).sum_eq

/-! ## Sorting -/

/-- By where they start, then by where they end. -/
def Before (a b : Edit α) : Prop := a.start < b.start ∨ a.start = b.start ∧ a.stop ≤ b.stop

instance : DecidableRel (Before (α := α)) := fun _ _ => inferInstanceAs (Decidable (_ ∨ _))

theorem before_total (a b : Edit α) : Before a b ∨ Before b a := by
  unfold Before
  omega

theorem Before.trans {a b c : Edit α} (hab : Before a b) (hbc : Before b c) : Before a c := by
  unfold Before at *
  omega

instance : Std.Total (Before (α := α)) := ⟨before_total⟩

instance : IsTrans (Edit α) Before := ⟨fun _ _ _ => Before.trans⟩

/-- Sorted edits that lie apart are in order. -/
theorem inOrder_iff_apart {edits : List (Edit α)} (hsorted : edits.Pairwise Before) (hforward : ∀ e ∈ edits, e.start ≤ e.stop) :
    InOrder edits ↔ edits.Pairwise Apart := by
  constructor
  · exact fun h => h.imp Or.inl
  · intro h
    refine (h.and hsorted).imp_of_mem fun {a b} ha hb hab => ?_
    obtain ⟨hapart, hbefore⟩ := hab
    have hforward_b := hforward b hb
    have hforward_a := hforward a ha
    unfold Apart at hapart
    unfold Before at hbefore
    omega

end Haruspex.Splicing
