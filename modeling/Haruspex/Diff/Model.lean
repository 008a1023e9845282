import Haruspex.Library.Occurrences
import Mathlib.Data.Int.Notation
import Mathlib.Algebra.GroupWithZero.Nat

/-! Line diffs (`lib/code/diff.ts`). Line numbers are integers, the typed array of lengths is a list whose
values are stored in 32 bits. -/
namespace Haruspex.Diff
set_option autoImplicit false

inductive Kind
  | ctx
  | add
  | del
  deriving DecidableEq, Repr

structure DiffLine where
  kind : Kind
  text : String
  oldNo : Option ℤ
  newNo : Option ℤ
  deriving DecidableEq, Repr

/-- A line, or unchanged lines left out between two hunks. -/
inductive DiffRow
  | line (row : DiffLine)
  | gap (skipped : ℕ)
  deriving DecidableEq, Repr

structure Op where
  kind : Kind
  text : String
  deriving DecidableEq, Repr

/-- `MAX_CELLS` -/
def maxCells : ℕ := 4000000

/-! ## The lines that differ -/

/-- A value as a `Uint32Array` stores it. -/
def u32 (n : ℕ) : ℕ := n % 2 ^ 32

/-- The value of a cell, from the cells after it. -/
def cell (a b : List String) (w : ℕ) (lcs : List ℕ) (i j : ℕ) : ℕ :=
  if a[i]? = b[j]? then lcs.getD ((i + 1) * w + j + 1) 0 + 1
  else max (lcs.getD ((i + 1) * w + j) 0) (lcs.getD (i * w + j + 1) 0)

/-- The loop over `j`, from `j - 1` down to 0. -/
def fillRow (a b : List String) (w i : ℕ) : ℕ → List ℕ → List ℕ
  | 0, lcs => lcs
  | j + 1, lcs => fillRow a b w i j (lcs.set (i * w + j) (u32 (cell a b w lcs i j)))

/-- The loop over `i`, from `i - 1` down to 0. -/
def fillTable (a b : List String) (w : ℕ) : ℕ → List ℕ → List ℕ
  | 0, lcs => lcs
  | i + 1, lcs => fillTable a b w i (fillRow a b w i b.length lcs)

/-- The lengths of `a[i..]` and `b[j..]`, at `i * w + j`. -/
def lcsTable (a b : List String) : List ℕ :=
  fillTable a b (b.length + 1) a.length (List.replicate ((a.length + 1) * (b.length + 1)) 0)

/-- The walk through the table; the lists are what is left of the two texts. -/
def walk (lcs : List ℕ) (w i j : ℕ) : List String → List String → List Op
  | x :: xs, y :: ys =>
    if x = y then ⟨.ctx, x⟩ :: walk lcs w (i + 1) (j + 1) xs ys
    else if lcs.getD (i * w + j + 1) 0 ≤ lcs.getD ((i + 1) * w + j) 0 then
      ⟨.del, x⟩ :: walk lcs w (i + 1) j xs (y :: ys)
    else ⟨.add, y⟩ :: walk lcs w i (j + 1) (x :: xs) ys
  | xs, [] => xs.map fun t => ⟨.del, t⟩
  | [], ys => ys.map fun t => ⟨.add, t⟩
termination_by xs ys => xs.length + ys.length

def middleOps (a b : List String) : List Op :=
  if a.length = 0 ∨ b.length = 0 ∨ maxCells < (a.length + 1) * (b.length + 1) then
    a.map (fun t => ⟨.del, t⟩) ++ b.map fun t => ⟨.add, t⟩
  else walk (lcsTable a b) (b.length + 1) 0 0 a b

/-! ## A whole diff -/

/-- A counter that goes up while a condition holds of it, `limit` times at most. -/
def countWhile (holds : ℕ → Bool) : ℕ → ℕ → ℕ
  | 0, k => k
  | limit + 1, k => if holds k then countWhile holds limit (k + 1) else k

/-- `pre`, the lines that the texts start with. -/
def sameFront (a b : List String) : ℕ :=
  countWhile (fun pre => a[pre]? = b[pre]?) (min a.length b.length) 0

/-- `suf`, the lines that the texts end with, after the first `pre`. -/
def sameBack (a b : List String) (pre : ℕ) : ℕ :=
  countWhile (fun suf => a[a.length - 1 - suf]? = b[b.length - 1 - suf]?)
    (min (a.length - pre) (b.length - pre)) 0

/-- `slice(start, stop)` -/
def slice (lines : List String) (start stop : ℕ) : List String := (lines.take stop).drop start

/-- The rows so far, and the next line numbers. -/
structure Output where
  out : List DiffLine := []
  o : ℤ
  n : ℤ

def Output.ctx (s : Output) (text : String) : Output :=
  { out := s.out ++ [⟨.ctx, text, some s.o, some s.n⟩], o := s.o + 1, n := s.n + 1 }

def Output.del (s : Output) (text : String) : Output :=
  { s with out := s.out ++ [⟨.del, text, some s.o, none⟩], o := s.o + 1 }

def Output.add (s : Output) (text : String) : Output :=
  { s with out := s.out ++ [⟨.add, text, none, some s.n⟩], n := s.n + 1 }

def Output.push (s : Output) (op : Op) : Output :=
  match op.kind with
  | .ctx => s.ctx op.text
  | .del => s.del op.text
  | .add => s.add op.text

/-- The texts between the lines that are the same at both ends. -/
def middles (a b : List String) : List String × List String :=
  let pre := sameFront a b
  let suf := sameBack a b pre
  (slice a pre (a.length - suf), slice b pre (b.length - suf))

def diffLines (a b : List String) (oldStart newStart : ℤ) : List DiffLine :=
  let pre := sameFront a b
  let suf := sameBack a b pre
  let s : Output := { o := oldStart, n := newStart }
  let s := (a.take pre).foldl Output.ctx s
  let s := (middleOps (middles a b).1 (middles a b).2).foldl Output.push s
  let s := (a.drop (a.length - suf)).foldl Output.ctx s
  s.out

/-! ## Hunks -/

/-- The lines from `start` on, `count` of them, marked as kept. -/
def keepFrom (keep : List Bool) (start : ℕ) : ℕ → List Bool
  | 0 => keep
  | count + 1 => keepFrom (keep.set start true) (start + 1) count

/-- The loop over the lines: each change keeps those around it. -/
def keepLoop (length context : ℕ) : List DiffLine → ℕ → List Bool → List Bool
  | [], _, keep => keep
  | l :: lines, i, keep =>
    if l.kind = .ctx then keepLoop length context lines (i + 1) keep
    else
      let start := max 0 (i - context)
      let stop := min (length - 1) (i + context)
      keepLoop length context lines (i + 1) (keepFrom keep start (stop + 1 - start))

/-- The lines that are kept, as flags. -/
def keptFlags (lines : List DiffLine) (context : ℕ) : List Bool :=
  keepLoop lines.length context lines 0 (List.replicate lines.length false)

/-- The loop over the lines and their flags, with the rows so far and the lines skipped since. -/
def emit : List (DiffLine × Bool) → ℕ → List DiffRow → List DiffRow
  | [], skipped, rows => if 0 < skipped ∧ 0 < rows.length then rows ++ [.gap skipped] else rows
  | (l, true) :: lines, skipped, rows =>
    emit lines 0 ((if 0 < skipped then rows ++ [.gap skipped] else rows) ++ [.line l])
  | (_, false) :: lines, skipped, rows => emit lines (skipped + 1) rows

def toHunks (lines : List DiffLine) (context : ℕ) : List DiffRow :=
  emit (lines.zip (keptFlags lines context)) 0 []

end Haruspex.Diff

/-! A diff reads both texts in order, and keeps as many lines as they have in common. -/
namespace Haruspex.Diff
open Subsequences (lcs)
set_option autoImplicit false

/-! ## What a script says -/

/-- The lines of the old text that a script goes through. -/
def oldTexts (ops : List Op) : List String := (ops.filter (·.kind ≠ .add)).map Op.text

/-- The lines of the new text that a script goes through. -/
def newTexts (ops : List Op) : List String := (ops.filter (·.kind ≠ .del)).map Op.text

/-- The lines that a script keeps. -/
def keeps (ops : List Op) : ℕ := ops.countP (·.kind = .ctx)

/-- The rows of a script, with the numbers that its lines have. -/
def numbered (o n : ℤ) : List Op → List DiffLine
  | [] => []
  | ⟨.ctx, text⟩ :: ops => ⟨.ctx, text, some o, some n⟩ :: numbered (o + 1) (n + 1) ops
  | ⟨.del, text⟩ :: ops => ⟨.del, text, some o, none⟩ :: numbered (o + 1) n ops
  | ⟨.add, text⟩ :: ops => ⟨.add, text, none, some n⟩ :: numbered o (n + 1) ops

variable {a b xs ys : List String} {ops more : List Op}

@[simp] theorem oldTexts_append : oldTexts (ops ++ more) = oldTexts ops ++ oldTexts more := by
  simp [oldTexts]

@[simp] theorem newTexts_append : newTexts (ops ++ more) = newTexts ops ++ newTexts more := by
  simp [newTexts]

@[simp] theorem keeps_append : keeps (ops ++ more) = keeps ops + keeps more := by
  simp [keeps]

/-- What the lines of one kind say. -/
theorem texts_map (kind : Kind) (xs : List String) :
    oldTexts (xs.map fun t => ⟨kind, t⟩) = (if kind = .add then [] else xs) ∧
      newTexts (xs.map fun t => ⟨kind, t⟩) = (if kind = .del then [] else xs) ∧
      keeps (xs.map fun t => ⟨kind, t⟩) = if kind = .ctx then xs.length else 0 := by
  unfold oldTexts newTexts keeps
  induction xs with
  | nil => simp
  | cons x xs ih =>
    obtain ⟨hold, hnew, hkeeps⟩ := ih
    cases kind <;> simp_all

/-! ## The walk -/

theorem walk_texts (table : List ℕ) (w i j : ℕ) (xs ys : List String) :
    oldTexts (walk table w i j xs ys) = xs ∧ newTexts (walk table w i j xs ys) = ys := by
  fun_induction walk table w i j xs ys with
  | case1 i j xs y ys ih => simpa [oldTexts, newTexts] using ih
  | case2 i j x xs y ys hne hle ih => simpa [oldTexts, newTexts] using ih
  | case3 i j x xs y ys hne hle ih => simpa [oldTexts, newTexts] using ih
  | case4 i j xs => simp [texts_map]
  | case5 i j ys hne => simp [texts_map]

theorem middleOps_texts (a b : List String) :
    oldTexts (middleOps a b) = a ∧ newTexts (middleOps a b) = b := by
  unfold middleOps
  split
  · simp [texts_map]
  · exact walk_texts _ _ _ _ a b

/-! ## The table -/

/-- The cells that are filled: the rows after `i`, and row `i` from `j` on; the last column is zero. -/
structure Filled (a b : List String) (i j : ℕ) (table : List ℕ) : Prop where
  length : table.length = (a.length + 1) * (b.length + 1)
  cells : ∀ i' j', i' ≤ a.length → j' ≤ b.length → (i < i' ∨ i' = i ∧ j ≤ j' ∨ j' = b.length) →
    table.getD (i' * (b.length + 1) + j') 0 = lcs (a.drop i') (b.drop j')

theorem index_lt {i j rows w : ℕ} (hi : i ≤ rows) (hj : j < w) : i * w + j < (rows + 1) * w := by
  have hle : (i + 1) * w ≤ (rows + 1) * w := Nat.mul_le_mul_right w (Nat.succ_le_succ hi)
  rw [Nat.succ_mul] at hle
  omega

theorem index_inj {i j i' j' w : ℕ} (hj : j < w) (hj' : j' < w) (h : i * w + j = i' * w + j') :
    i = i' ∧ j = j' := by
  have hrest := congrArg (· % w) h
  simp only [Nat.mul_add_mod', Nat.mod_eq_of_lt hj, Nat.mod_eq_of_lt hj'] at hrest
  subst hrest
  exact ⟨Nat.eq_of_mul_eq_mul_right (by omega) (Nat.add_right_cancel h), rfl⟩

theorem drop_eq {l : List String} {i : ℕ} (h : i < l.length) : l.drop i = l[i] :: l.drop (i + 1) :=
  List.drop_eq_getElem_cons h

/-- The value of a cell is the length that it stands for. -/
theorem cell_eq {table : List ℕ} {i j : ℕ} (hi : i < a.length) (hj : j < b.length)
    (h : Filled a b i (j + 1) table) :
    cell a b (b.length + 1) table i j = lcs (a.drop i) (b.drop j) := by
  have hdiag := h.cells (i + 1) (j + 1) hi hj (.inl (Nat.lt_succ_self i))
  have hdown := h.cells (i + 1) j hi (by omega) (.inl (Nat.lt_succ_self i))
  have hright := h.cells i (j + 1) (by omega) hj (.inr (.inl ⟨rfl, Nat.le_refl _⟩))
  unfold cell
  rw [Nat.add_assoc, hdiag, Nat.add_assoc, hdown, hright, drop_eq hi, drop_eq hj]
  by_cases hsame : a[i] = b[j]
  · rw [if_pos (by simp [hi, hj, hsame]), hsame, Subsequences.lcs_cons_same]
  · rw [if_neg (by simp [hi, hj, hsame]), Subsequences.lcs_cons_ne hsame]

theorem u32_eq {n : ℕ} (h : n < 2 ^ 32) : u32 n = n := Nat.mod_eq_of_lt h

/-- One cell more is filled. -/
theorem Filled.set {table : List ℕ} {i j : ℕ} (hi : i < a.length) (hj : j < b.length)
    (hsmall : a.length < 2 ^ 32) (h : Filled a b i (j + 1) table) :
    Filled a b i j (table.set (i * (b.length + 1) + j) (u32 (cell a b (b.length + 1) table i j))) where
  length := by rw [List.length_set, h.length]
  cells i' j' hi' hj' hfilled := by
    rw [cell_eq hi hj h]
    have hvalue : u32 (lcs (a.drop i) (b.drop j)) = lcs (a.drop i) (b.drop j) := by
      have hle := Subsequences.lcs_le_left (a.drop i) (b.drop j)
      rw [List.length_drop] at hle
      exact u32_eq (by omega)
    rw [hvalue]
    by_cases hsame : i = i' ∧ j = j'
    · obtain ⟨rfl, rfl⟩ := hsame
      have hin : i * (b.length + 1) + j < table.length := by
        rw [h.length]
        exact index_lt hi' (by omega)
      simp [hin]
    · have hother : i * (b.length + 1) + j ≠ i' * (b.length + 1) + j' :=
        fun heq => hsame (index_inj (by omega) (by omega) heq)
      rw [List.getD_eq_getElem?_getD, List.getElem?_set_ne hother, ← List.getD_eq_getElem?_getD]
      refine h.cells i' j' hi' hj' ?_
      omega

theorem Filled.fillRow {table : List ℕ} {i : ℕ} (hi : i < a.length) (hsmall : a.length < 2 ^ 32) (j : ℕ)
    (hj : j ≤ b.length) (h : Filled a b i j table) :
    Filled a b i 0 (fillRow a b (b.length + 1) i j table) := by
  induction j generalizing table with
  | zero => exact h
  | succ j ih => exact ih (by omega) (h.set hi hj hsmall)

theorem Filled.fillTable {table : List ℕ} (hsmall : a.length < 2 ^ 32) (i : ℕ) (hi : i ≤ a.length)
    (h : Filled a b i 0 table) : Filled a b 0 0 (fillTable a b (b.length + 1) i table) := by
  induction i generalizing table with
  | zero => exact h
  | succ i ih =>
    -- Row `i` has its last column only, which is the state from which the inner loop starts.
    have hrow : Filled a b i b.length table := by
      refine ⟨h.length, fun i' j' hi' hj' hfilled => h.cells i' j' hi' hj' ?_⟩
      omega
    exact ih (by omega) (hrow.fillRow hi hsmall b.length (Nat.le_refl _))

theorem filled_lcsTable (hsmall : a.length < 2 ^ 32) : Filled a b 0 0 (lcsTable a b) := by
  refine Filled.fillTable hsmall a.length (Nat.le_refl _) ⟨by simp, fun i' j' hi' hj' hfilled => ?_⟩
  have hzero : lcs (a.drop i') (b.drop j') = 0 := by
    rcases hfilled with hlt | ⟨rfl, -⟩ | rfl
    · omega
    · simp
    · simp
  rw [hzero, List.getD_eq_getElem?_getD, List.getElem?_replicate]
  split <;> rfl

/-! ## The walk keeps as many lines as there are in common -/

/-- A list that starts where another one is cut has its next line after the cut. -/
theorem tail_of_drop {l xs : List String} {x : String} {i : ℕ} (h : x :: xs = l.drop i) :
    i + 1 ≤ l.length ∧ xs = l.drop (i + 1) := by
  have hi : i < l.length := by
    by_contra hge
    simp [List.drop_eq_nil_of_le (Nat.le_of_not_lt hge)] at h
  rw [drop_eq hi] at h
  exact ⟨hi, (List.cons.inj h).2⟩

theorem walk_keeps {table : List ℕ} (h : Filled a b 0 0 table) (i j : ℕ) (xs ys : List String)
    (hi : i ≤ a.length) (hj : j ≤ b.length) (hxs : xs = a.drop i) (hys : ys = b.drop j) :
    keeps (walk table (b.length + 1) i j xs ys) = lcs xs ys := by
  have hcell : ∀ i' j', i' ≤ a.length → j' ≤ b.length →
      table.getD (i' * (b.length + 1) + j') 0 = lcs (a.drop i') (b.drop j') := by
    intro i' j' hi' hj'
    exact h.cells i' j' hi' hj' (by omega)
  fun_induction walk table (b.length + 1) i j xs ys with
  | case1 i j xs y ys ih =>
    obtain ⟨hi', hxs'⟩ := tail_of_drop hxs
    obtain ⟨hj', hys'⟩ := tail_of_drop hys
    rw [Subsequences.lcs_cons_same, ← ih hi' hj' hxs' hys']
    simp [keeps]
  | case2 i j x xs y ys hne hle ih =>
    obtain ⟨hi', hxs'⟩ := tail_of_drop hxs
    obtain ⟨hj', hys'⟩ := tail_of_drop hys
    rw [Nat.add_assoc, hcell i (j + 1) hi hj', hcell (i + 1) j hi' hj, ← hxs, ← hys, ← hxs', ← hys'] at hle
    rw [Subsequences.lcs_cons_ne hne, Nat.max_eq_left hle, ← ih hi' hj hxs' hys]
    simp [keeps]
  | case3 i j x xs y ys hne hle ih =>
    obtain ⟨hi', hxs'⟩ := tail_of_drop hxs
    obtain ⟨hj', hys'⟩ := tail_of_drop hys
    rw [Nat.add_assoc, hcell i (j + 1) hi hj', hcell (i + 1) j hi' hj, ← hxs, ← hys, ← hxs', ← hys'] at hle
    rw [Subsequences.lcs_cons_ne hne, Nat.max_eq_right (by omega), ← ih hi hj' hxs hys']
    simp [keeps]
  | case4 i j xs => simp [texts_map]
  | case5 i j ys hne => simp [texts_map]

theorem middleOps_keeps (h : (a.length + 1) * (b.length + 1) ≤ maxCells) :
    keeps (middleOps a b) = lcs a b := by
  unfold middleOps
  split
  · rename_i hempty
    rcases hempty with hnil | hnil | hlarge
    · rw [List.length_eq_zero_iff.mp hnil]
      simp [texts_map]
    · rw [List.length_eq_zero_iff.mp hnil]
      simp [texts_map]
    · omega
  · have hsmall : a.length < 2 ^ 32 := by
      have hle := Nat.le_mul_of_pos_right (a.length + 1) (show 0 < b.length + 1 by omega)
      unfold maxCells at h
      omega
    exact walk_keeps (filled_lcsTable hsmall) 0 0 a b (Nat.zero_le _) (Nat.zero_le _) rfl rfl

/-! ## The ends that are the same -/

theorem countWhile_spec (holds : ℕ → Bool) (limit k : ℕ) :
    k ≤ countWhile holds limit k ∧ countWhile holds limit k ≤ k + limit ∧
      ∀ m, k ≤ m → m < countWhile holds limit k → holds m = true := by
  induction limit generalizing k with
  | zero =>
    refine ⟨Nat.le_refl _, Nat.le_refl _, fun m hm hlt => ?_⟩
    rw [countWhile] at hlt
    omega
  | succ limit ih =>
    unfold countWhile
    by_cases hk : holds k = true
    · rw [if_pos hk]
      obtain ⟨hle, hub, hall⟩ := ih (k + 1)
      refine ⟨by omega, by omega, fun m hm hlt => ?_⟩
      rcases Nat.eq_or_lt_of_le hm with rfl | hm
      · exact hk
      · exact hall m hm hlt
    · rw [if_neg hk]
      exact ⟨Nat.le_refl _, by omega, fun m hm hlt => by omega⟩

theorem sameFront_spec (a b : List String) :
    sameFront a b ≤ a.length ∧ sameFront a b ≤ b.length ∧ a.take (sameFront a b) = b.take (sameFront a b) := by
  obtain ⟨-, hle, hall⟩ := countWhile_spec (fun pre => decide (a[pre]? = b[pre]?)) (min a.length b.length) 0
  have hbound : sameFront a b ≤ min a.length b.length := by
    rw [Nat.zero_add] at hle
    exact hle
  refine ⟨by omega, by omega, List.ext_getElem? fun m => ?_⟩
  rw [List.getElem?_take, List.getElem?_take]
  split
  · rename_i hm
    exact of_decide_eq_true (hall m (Nat.zero_le m) hm)
  · rfl

theorem sameBack_spec (a b : List String) (pre : ℕ) :
    sameBack a b pre ≤ a.length - pre ∧ sameBack a b pre ≤ b.length - pre ∧
      a.drop (a.length - sameBack a b pre) = b.drop (b.length - sameBack a b pre) := by
  obtain ⟨-, hle, hall⟩ := countWhile_spec
    (fun suf => decide (a[a.length - 1 - suf]? = b[b.length - 1 - suf]?)) (min (a.length - pre) (b.length - pre)) 0
  have hbound : sameBack a b pre ≤ min (a.length - pre) (b.length - pre) := by
    rw [Nat.zero_add] at hle
    exact hle
  refine ⟨by omega, by omega, List.ext_getElem? fun m => ?_⟩
  rw [List.getElem?_drop, List.getElem?_drop]
  by_cases hm : m < sameBack a b pre
  · -- The line is as many places from the end as the loop counts.
    have hsame := of_decide_eq_true (hall (sameBack a b pre - 1 - m) (Nat.zero_le _) (by
      show _ < sameBack a b pre
      omega))
    have ha : a.length - 1 - (sameBack a b pre - 1 - m) = a.length - sameBack a b pre + m := by omega
    have hb : b.length - 1 - (sameBack a b pre - 1 - m) = b.length - sameBack a b pre + m := by omega
    rwa [ha, hb] at hsame
  · rw [List.getElem?_eq_none (by omega), List.getElem?_eq_none (by omega)]

/-- A text is its front, its middle and its back. -/
theorem split_three (lines : List String) {pre stop : ℕ} (h : pre ≤ stop) :
    lines.take pre ++ slice lines pre stop ++ lines.drop stop = lines := by
  have hfront : lines.take pre = (lines.take stop).take pre := by
    rw [List.take_take, Nat.min_eq_left h]
  rw [slice, hfront, List.take_append_drop, List.take_append_drop]

/-! ## The whole script -/

/-- All of a diff, one operation after another. -/
def script (a b : List String) : List Op :=
  ((a.take (sameFront a b)).map fun t => ⟨.ctx, t⟩) ++ middleOps (middles a b).1 (middles a b).2 ++
    (a.drop (a.length - sameBack a b (sameFront a b))).map fun t => ⟨.ctx, t⟩

theorem script_texts (a b : List String) : oldTexts (script a b) = a ∧ newTexts (script a b) = b := by
  obtain ⟨hpa, hpb, hfront⟩ := sameFront_spec a b
  obtain ⟨hsa, hsb, hback⟩ := sameBack_spec a b (sameFront a b)
  obtain ⟨hold, hnew⟩ := middleOps_texts (middles a b).1 (middles a b).2
  unfold script
  simp only [oldTexts_append, newTexts_append, texts_map, hold, hnew]
  constructor
  · exact split_three a (by omega)
  · rw [hfront, hback]
    exact split_three b (by omega)

theorem script_keeps (h : ((middles a b).1.length + 1) * ((middles a b).2.length + 1) ≤ maxCells) :
    keeps (script a b) = lcs a b := by
  obtain ⟨hpa, hpb, hfront⟩ := sameFront_spec a b
  obtain ⟨hsa, hsb, hback⟩ := sameBack_spec a b (sameFront a b)
  have hwhole : lcs a b = lcs (a.take (sameFront a b) ++ (middles a b).1 ++ a.drop (a.length - sameBack a b (sameFront a b)))
      (b.take (sameFront a b) ++ (middles a b).2 ++ b.drop (b.length - sameBack a b (sameFront a b))) := by
    unfold middles
    rw [split_three a (by omega), split_three b (by omega)]
  rw [hwhole, ← hfront, ← hback, Subsequences.lcs_append_right, Subsequences.lcs_append_left]
  unfold script
  simp only [keeps_append, texts_map, middleOps_keeps h]
  rfl

/-! ## The rows -/

/-- Pushing operations numbers their lines, from where the counters stand. -/
theorem foldl_push (ops : List Op) (s : Output) :
    (ops.foldl Output.push s).out = s.out ++ numbered s.o s.n ops ∧
      (ops.foldl Output.push s).o = s.o + (oldTexts ops).length ∧
      (ops.foldl Output.push s).n = s.n + (newTexts ops).length := by
  induction ops generalizing s with
  | nil => simp [numbered, oldTexts, newTexts]
  | cons op ops ih =>
    obtain ⟨hout, ho, hn⟩ := ih (s.push op)
    obtain ⟨kind, text⟩ := op
    rw [List.foldl_cons, hout, ho, hn]
    cases kind <;>
      simp [Output.push, Output.ctx, Output.del, Output.add, numbered, oldTexts, newTexts] <;> omega

theorem foldl_ctx (texts : List String) (s : Output) :
    texts.foldl Output.ctx s = (texts.map fun t => (⟨.ctx, t⟩ : Op)).foldl Output.push s := by
  rw [List.foldl_map]
  rfl

theorem diffLines_eq (a b : List String) (oldStart newStart : ℤ) :
    diffLines a b oldStart newStart = numbered oldStart newStart (script a b) := by
  unfold diffLines script
  dsimp only
  rw [foldl_ctx, foldl_ctx, ← List.foldl_append, ← List.foldl_append, (foldl_push _ _).1, List.nil_append,
    List.append_assoc]

/-- Lines under numbers one after another. -/
def counted (start : ℤ) (texts : List String) : List (String × Option ℤ) :=
  texts.mapIdx fun i t => (t, some (start + i))

theorem counted_cons (start : ℤ) (t : String) (texts : List String) :
    counted start (t :: texts) = (t, some start) :: counted (start + 1) texts := by
  unfold counted
  have hshift : ∀ i : ℕ, start + ((i + 1 : ℕ) : ℤ) = start + 1 + i := by
    intro i
    omega
  simp only [List.mapIdx_cons, hshift]
  simp

/-- The rows that are not added read the old lines. -/
theorem numbered_old (ops : List Op) (o n : ℤ) :
    ((numbered o n ops).filter (·.kind ≠ .add)).map (fun r => (r.text, r.oldNo)) =
      counted o (oldTexts ops) := by
  induction ops generalizing o n with
  | nil => rfl
  | cons op ops ih =>
    obtain ⟨kind, text⟩ := op
    cases kind
    · simpa [numbered, oldTexts, counted_cons] using ih (o + 1) (n + 1)
    · simpa [numbered, oldTexts] using ih o (n + 1)
    · simpa [numbered, oldTexts, counted_cons] using ih (o + 1) n

theorem numbered_new (ops : List Op) (o n : ℤ) :
    ((numbered o n ops).filter (·.kind ≠ .del)).map (fun r => (r.text, r.newNo)) =
      counted n (newTexts ops) := by
  induction ops generalizing o n with
  | nil => rfl
  | cons op ops ih =>
    obtain ⟨kind, text⟩ := op
    cases kind
    · simpa [numbered, newTexts, counted_cons] using ih (o + 1) (n + 1)
    · simpa [numbered, newTexts, counted_cons] using ih o (n + 1)
    · simpa [numbered, newTexts] using ih (o + 1) n

theorem numbered_keeps (ops : List Op) (o n : ℤ) :
    (numbered o n ops).countP (·.kind = .ctx) = keeps ops := by
  induction ops generalizing o n with
  | nil => rfl
  | cons op ops ih =>
    obtain ⟨kind, text⟩ := op
    cases kind <;> simp_all [numbered, keeps]

/-- The old numbers of the rows. -/
theorem numbered_oldNos (ops : List Op) (o n : ℤ) (i : ℕ) (number : ℤ)
    (h : ((numbered o n ops).filterMap (·.oldNo))[i]? = some number) : number = o + i := by
  induction ops generalizing o n i with
  | nil => simp [numbered] at h
  | cons op ops ih =>
    obtain ⟨kind, text⟩ := op
    cases kind
    · cases i with
      | zero => simpa [numbered, eq_comm] using h
      | succ i =>
        have hrest := ih (o + 1) (n + 1) i (by simpa [numbered] using h)
        omega
    · exact ih o (n + 1) i (by simpa [numbered] using h)
    · cases i with
      | zero => simpa [numbered, eq_comm] using h
      | succ i =>
        have hrest := ih (o + 1) n i (by simpa [numbered] using h)
        omega

theorem numbered_newNos (ops : List Op) (o n : ℤ) (i : ℕ) (number : ℤ)
    (h : ((numbered o n ops).filterMap (·.newNo))[i]? = some number) : number = n + i := by
  induction ops generalizing o n i with
  | nil => simp [numbered] at h
  | cons op ops ih =>
    obtain ⟨kind, text⟩ := op
    cases kind
    · cases i with
      | zero => simpa [numbered, eq_comm] using h
      | succ i =>
        have hrest := ih (o + 1) (n + 1) i (by simpa [numbered] using h)
        omega
    · cases i with
      | zero => simpa [numbered, eq_comm] using h
      | succ i =>
        have hrest := ih o (n + 1) i (by simpa [numbered] using h)
        omega
    · exact ih (o + 1) n i (by simpa [numbered] using h)

/-- A line that is kept has both numbers. -/
theorem numbered_ctx {ops : List Op} {o n : ℤ} {r : DiffLine} (h : r ∈ numbered o n ops)
    (hkind : r.kind = .ctx) : r.oldNo.isSome = true ∧ r.newNo.isSome = true := by
  induction ops generalizing o n with
  | nil => cases h
  | cons op ops ih =>
    obtain ⟨kind, text⟩ := op
    cases kind
    all_goals
      rw [numbered, List.mem_cons] at h
      rcases h with rfl | h
      · simp_all
      · exact ih h

end Haruspex.Diff
