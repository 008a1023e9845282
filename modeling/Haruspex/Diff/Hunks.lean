import Haruspex.Diff.Model

/-! Hunks keep the rows around each change, and their gaps count the others. -/
namespace Haruspex.Diff
set_option autoImplicit false

/-- A row within `context` of a change. -/
def near (lines : List DiffLine) (context i : ℕ) : Bool :=
  lines.zipIdx.any fun p => p.1.kind ≠ .ctx && p.2 ≤ i + context && i ≤ p.2 + context

/-- The rows of hunks, without the gaps. -/
def rowsOf (rows : List DiffRow) : List DiffLine :=
  rows.filterMap fun r =>
    match r with
    | .line l => some l
    | .gap _ => none

/-- How many lines the gaps leave out. -/
def skippedOf : List DiffRow → ℕ
  | [] => 0
  | .line _ :: rows => skippedOf rows
  | .gap skipped :: rows => skipped + skippedOf rows

/-! ## The flags -/

theorem keepFrom_length (keep : List Bool) (start count : ℕ) :
    (keepFrom keep start count).length = keep.length := by
  induction count generalizing keep start with
  | zero => rfl
  | succ count ih => rw [keepFrom, ih, List.length_set]

theorem keepFrom_getD (keep : List Bool) (start count k : ℕ) (hk : k < keep.length) :
    (keepFrom keep start count).getD k false = true ↔
      keep.getD k false = true ∨ (start ≤ k ∧ k < start + count) := by
  induction count generalizing keep start with
  | zero =>
    rw [keepFrom]
    exact ⟨.inl, fun h => h.elim id fun h => by omega⟩
  | succ count ih =>
    rw [keepFrom, ih _ _ (by rwa [List.length_set])]
    by_cases hsame : start = k
    · subst hsame
      simp [hk]
    · rw [List.getD_eq_getElem?_getD, List.getElem?_set_ne hsame, ← List.getD_eq_getElem?_getD]
      exact or_congr_right (by omega)

theorem keepLoop_length (length context : ℕ) (lines : List DiffLine) (i : ℕ) (keep : List Bool) :
    (keepLoop length context lines i keep).length = keep.length := by
  induction lines generalizing i keep with
  | nil => rfl
  | cons l lines ih =>
    unfold keepLoop
    split
    · exact ih _ _
    · rw [ih, keepFrom_length]

/-- What the loop keeps: what was kept, and what is near a change it goes through. -/
theorem keepLoop_getD {length context : ℕ} (lines : List DiffLine) (i : ℕ) (keep : List Bool) (k : ℕ)
    (hi : i + lines.length ≤ length) (hkeep : keep.length = length) (hk : k < length) :
    (keepLoop length context lines i keep).getD k false = true ↔
      keep.getD k false = true ∨
        ∃ p ∈ lines.zipIdx i, p.1.kind ≠ .ctx ∧ p.2 ≤ k + context ∧ k ≤ p.2 + context := by
  induction lines generalizing i keep with
  | nil => simp [keepLoop]
  | cons l lines ih =>
    rw [List.length_cons] at hi
    unfold keepLoop
    rw [List.zipIdx_cons]
    by_cases hctx : l.kind = .ctx
    · rw [if_pos hctx, ih _ _ (by omega) hkeep]
      simp [hctx]
    · rw [if_neg hctx, ih _ _ (by omega) (by rw [keepFrom_length, hkeep]), keepFrom_getD _ _ _ _ (by omega)]
      have hwindow : (max 0 (i - context) ≤ k ∧
          k < max 0 (i - context) + (min (length - 1) (i + context) + 1 - max 0 (i - context))) ↔
          i ≤ k + context ∧ k ≤ i + context := by omega
      rw [hwindow, or_assoc]
      simp [hctx]

theorem keptFlags_eq (lines : List DiffLine) (context : ℕ) :
    keptFlags lines context = (List.range lines.length).map (near lines context) := by
  have hlength : (keptFlags lines context).length = lines.length := by
    rw [keptFlags, keepLoop_length, List.length_replicate]
  refine List.ext_getElem (by simp [hlength]) fun k hk _ => ?_
  rw [hlength] at hk
  rw [List.getElem_map, List.getElem_range, Bool.eq_iff_iff]
  have hflag : (keptFlags lines context)[k] = (keptFlags lines context).getD k false := by
    rw [List.getD_eq_getElem?_getD, List.getElem?_eq_getElem]
    rfl
  have hspec := @keepLoop_getD lines.length context lines 0 (List.replicate lines.length false) k
    (by omega) List.length_replicate hk
  rw [hflag, keptFlags, hspec]
  unfold near
  simp [hk, and_assoc]

/-! ## The rows -/

/-- The rows that come after `skipped` lines are left out; `any` says whether rows stand before. -/
def lay (any : Bool) (skipped : ℕ) : List (DiffLine × Bool) → List DiffRow
  | [] => if 0 < skipped ∧ any = true then [.gap skipped] else []
  | (l, true) :: lines => (if 0 < skipped then [.gap skipped] else []) ++ .line l :: lay true 0 lines
  | (_, false) :: lines => lay any (skipped + 1) lines

theorem emit_eq (lines : List (DiffLine × Bool)) (skipped : ℕ) (rows : List DiffRow) :
    emit lines skipped rows = rows ++ lay (decide (0 < rows.length)) skipped lines := by
  induction lines generalizing skipped rows with
  | nil =>
    unfold emit lay
    split <;> simp_all
  | cons p lines ih =>
    obtain ⟨l, kept⟩ := p
    cases kept
    · rw [emit, lay, ih]
    · rw [emit, lay, ih]
      split <;> simp

theorem rowsOf_lay (any : Bool) (skipped : ℕ) (lines : List (DiffLine × Bool)) :
    rowsOf (lay any skipped lines) = (lines.filter Prod.snd).map Prod.fst := by
  induction lines generalizing any skipped with
  | nil =>
    unfold lay
    split <;> simp [rowsOf]
  | cons p lines ih =>
    obtain ⟨l, kept⟩ := p
    cases kept
    · rw [lay, ih]
      simp
    · have h := ih true 0
      unfold rowsOf at h ⊢
      rw [lay]
      split <;> simp [h]

theorem skippedOf_lay (any : Bool) (skipped : ℕ) (lines : List (DiffLine × Bool))
    (h : any = true ∨ ∃ p ∈ lines, p.2 = true) :
    skippedOf (lay any skipped lines) + (rowsOf (lay any skipped lines)).length = skipped + lines.length := by
  induction lines generalizing any skipped with
  | nil =>
    obtain rfl : any = true := h.elim id fun ⟨p, hp, _⟩ => by cases hp
    rw [lay]
    split
    · simp [skippedOf, rowsOf]
    · rename_i hnone
      simp only [and_true] at hnone
      simp [skippedOf, rowsOf]
      omega
  | cons p lines ih =>
    obtain ⟨l, kept⟩ := p
    cases kept
    · have hrest : any = true ∨ ∃ p ∈ lines, p.2 = true := by simpa using h
      have hsum := ih any (skipped + 1) hrest
      rw [lay, hsum, List.length_cons]
      omega
    · have hsum := ih true 0 (.inl rfl)
      rw [rowsOf_lay] at hsum ⊢
      rw [lay]
      split
      · simp only [List.cons_append, List.nil_append, skippedOf]
        simp at hsum ⊢
        omega
      · simp only [List.nil_append, skippedOf]
        simp at hsum ⊢
        omega

/-- A gap at the start counts what was left out before, and the lines up to the next one that is kept. -/
theorem lay_gap {any : Bool} {skipped s : ℕ} {r : DiffLine} {lines : List (DiffLine × Bool)}
    {rest : List DiffRow} (h : lay any skipped lines = .gap s :: .line r :: rest) :
    ∃ middle after, lines = middle ++ (r, true) :: after ∧ (∀ p ∈ middle, p.2 = false) ∧
      s = skipped + middle.length := by
  induction lines generalizing skipped with
  | nil =>
    unfold lay at h
    split at h <;> simp at h
  | cons p lines ih =>
    obtain ⟨l, kept⟩ := p
    cases kept
    · obtain ⟨middle, after, rfl, hfalse, hs⟩ := ih h
      refine ⟨(l, false) :: middle, after, rfl, ?_, ?_⟩
      · simpa using hfalse
      · rw [hs, List.length_cons]
        omega
    · rw [lay] at h
      split at h
      · simp only [List.cons_append, List.nil_append, List.cons.injEq, DiffRow.gap.injEq,
          DiffRow.line.injEq] at h
        exact ⟨[], lines, by rw [h.2.1]; rfl, List.forall_mem_nil _, by simp [h.1]⟩
      · simp at h

/-- Between two hunks, the gap stands for the lines between their rows. -/
theorem lay_between {any : Bool} {skipped s : ℕ} {r r' : DiffLine} {lines : List (DiffLine × Bool)}
    (h : [.line r, .gap s, .line r'] <:+: lay any skipped lines) :
    ∃ before middle after, lines = before ++ (r, true) :: (middle ++ (r', true) :: after) ∧
      (∀ p ∈ middle, p.2 = false) ∧ middle.length = s := by
  induction lines generalizing any skipped with
  | nil =>
    have hlength := h.length_le
    unfold lay at hlength
    split at hlength <;> simp at hlength
  | cons p lines ih =>
    obtain ⟨l, kept⟩ := p
    cases kept
    · obtain ⟨before, middle, after, rfl, hmiddle⟩ := ih h
      exact ⟨(l, false) :: before, middle, after, rfl, hmiddle⟩
    · have hrows : [.line r, .gap s, .line r'] <:+: .line l :: lay true 0 lines := by
        rw [lay] at h
        split at h
        · rcases List.infix_cons_iff.mp h with hstart | hrest
          · obtain ⟨_, heq⟩ := hstart
            simp at heq
          · exact hrest
        · exact h
      rcases List.infix_cons_iff.mp hrows with hstart | hrest
      · obtain ⟨rest, heq⟩ := hstart
        simp only [List.cons_append, List.nil_append, List.cons.injEq, DiffRow.line.injEq] at heq
        obtain ⟨rfl, hgap⟩ := heq
        obtain ⟨middle, after, rfl, hfalse, hs⟩ := lay_gap hgap.symm
        exact ⟨[], middle, after, rfl, hfalse, by omega⟩
      · obtain ⟨before, middle, after, rfl, hmiddle⟩ := ih hrest
        exact ⟨(l, true) :: before, middle, after, rfl, hmiddle⟩

/-! ## Hunks of any rows -/

theorem zip_flags (lines : List DiffLine) (context : ℕ) :
    lines.zip (keptFlags lines context) = lines.zipIdx.map fun p => (p.1, near lines context p.2) := by
  rw [keptFlags_eq, List.range_eq_range', List.zip_map_right, ← List.zipIdx_eq_zip_range']
  rfl

/-- The rows that are kept are those near a change. -/
theorem rowsOf_toHunks (lines : List DiffLine) (context : ℕ) :
    rowsOf (toHunks lines context) = (lines.zipIdx.filter fun p => near lines context p.2).map Prod.fst := by
  rw [toHunks, emit_eq, List.nil_append, rowsOf_lay, zip_flags, List.filter_map, List.map_map]
  rfl

theorem near_self {lines : List DiffLine} {p : DiffLine × ℕ} (context : ℕ) (hp : p ∈ lines.zipIdx)
    (hchange : p.1.kind ≠ .ctx) : near lines context p.2 = true := by
  refine List.any_eq_true.mpr ⟨p, hp, ?_⟩
  simp [hchange]

theorem skippedOf_toHunks (lines : List DiffLine) (context : ℕ) (h : ∃ r ∈ lines, r.kind ≠ .ctx) :
    skippedOf (toHunks lines context) + (rowsOf (toHunks lines context)).length = lines.length := by
  obtain ⟨r, hr, hchange⟩ := h
  obtain ⟨i, hi⟩ := List.mem_iff_getElem?.mp hr
  have hmem : (r, i) ∈ lines.zipIdx := List.mem_zipIdx_iff_getElem?.mpr hi
  have hkept : ∃ p ∈ lines.zip (keptFlags lines context), p.2 = true := by
    rw [zip_flags]
    exact ⟨_, List.mem_map.mpr ⟨(r, i), hmem, rfl⟩, near_self context hmem hchange⟩
  have hsum := skippedOf_lay false 0 _ (.inr hkept)
  rw [zip_flags, List.length_map, List.length_zipIdx, ← zip_flags, Nat.zero_add] at hsum
  rw [toHunks, emit_eq]
  exact hsum

/-- What a gap stands for: as many lines as it counts, and none of them a change. -/
theorem gap_toHunks {lines : List DiffLine} {context s : ℕ} {r r' : DiffLine}
    (h : [.line r, .gap s, .line r'] <:+: toHunks lines context) :
    ∃ before middle after, lines = before ++ r :: (middle ++ r' :: after) ∧
      (∀ l ∈ middle, l.kind = .ctx) ∧ middle.length = s := by
  rw [toHunks, emit_eq, List.nil_append] at h
  obtain ⟨before, middle, after, heq, hfalse, hs⟩ := lay_between h
  have hlines : lines = (lines.zip (keptFlags lines context)).map Prod.fst := by
    rw [List.map_fst_zip]
    rw [keptFlags_eq]
    simp
  refine ⟨before.map Prod.fst, middle.map Prod.fst, after.map Prod.fst, ?_, ?_, by rw [List.length_map, hs]⟩
  · rw [hlines, heq]
    simp
  · intro l hl
    obtain ⟨p, hp, rfl⟩ := List.mem_map.mp hl
    have hmem : p ∈ lines.zip (keptFlags lines context) := by
      rw [heq]
      simp [hp]
    have hflag := hfalse p hp
    rw [zip_flags] at hmem
    obtain ⟨q, hq, rfl⟩ := List.mem_map.mp hmem
    by_contra hchange
    rw [near_self context hq hchange] at hflag
    cases hflag

/-! ## Numbers -/

theorem length_filterMap_of_isSome {rows : List DiffLine} {number : DiffLine → Option ℤ}
    (h : ∀ l ∈ rows, (number l).isSome = true) : (rows.filterMap number).length = rows.length := by
  induction rows with
  | nil => rfl
  | cons l rows ih =>
    rw [List.forall_mem_cons] at h
    obtain ⟨n, hn⟩ := Option.isSome_iff_exists.mp h.1
    rw [List.filterMap_cons_some hn, List.length_cons, List.length_cons, ih h.2]

/-- Numbers that go up one by one: between the last before a piece and the first after it lie as many as the
piece has. -/
theorem next_number {numbers front piece back : List ℤ} {start p q : ℤ}
    (hall : ∀ (i : ℕ) (number : ℤ), numbers[i]? = some number → number = start + i)
    (hsplit : numbers = front ++ (piece ++ back)) (hp : front.getLast? = some p)
    (hq : back.head? = some q) : q = p + piece.length + 1 := by
  obtain ⟨front, rfl⟩ := List.getLast?_eq_some_iff.mp hp
  obtain ⟨back, rfl⟩ := List.head?_eq_some_iff.mp hq
  have hfirst := hall front.length p (by simp [hsplit])
  have hsecond := hall (front.length + 1 + piece.length) q (by
    rw [hsplit, List.getElem?_append_right (by simp), List.getElem?_append_right (by simp)]
    simp)
  push_cast at hsecond
  omega

end Haruspex.Diff
