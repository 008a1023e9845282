import Haruspex.ImageGen.Islands
import Mathlib.Data.List.Induction

/-! Which islands are near one another (`image_gen/split.rs`). -/
namespace Haruspex.ImageGen
set_option autoImplicit false

/-! ## Groups by a key -/

section
variable {K V : Type} [DecidableEq K]

/-- A value put with those of its key, the keys in the order they first came. -/
def push (groups : List (K × List V)) (k : K) (v : V) : List (K × List V) :=
  match groups with
  | [] => [(k, [v])]
  | (r, members) :: rest => if r = k then (r, members ++ [v]) :: rest else (r, members) :: push rest k v

def collect (key : V → K) (vs : List V) : List (K × List V) := vs.foldl (fun groups v => push groups (key v) v) []

def entryAt (groups : List (K × List V)) (k : K) : Option (List V) := groups.lookup k

theorem push_keys (groups : List (K × List V)) (k : K) (v : V) :
    (push groups k v).map Prod.fst =
      if k ∈ groups.map Prod.fst then groups.map Prod.fst else groups.map Prod.fst ++ [k] := by
  induction groups with
  | nil => rfl
  | cons g rest ih =>
    obtain ⟨r, members⟩ := g
    unfold push
    by_cases h : r = k
    · simp [h]
    · rw [if_neg h, List.map_cons, ih]
      by_cases hk : k ∈ rest.map Prod.fst
      · rw [if_pos hk, if_pos (by simp only [List.map_cons, List.mem_cons]; exact .inr hk)]
        rfl
      · rw [if_neg hk, if_neg (by simp only [List.map_cons, List.mem_cons]; exact fun h' => h'.elim (fun h' => h h'.symm) hk)]
        rfl

theorem push_lookup (groups : List (K × List V)) (k k' : K) (v : V) :
    (push groups k v).lookup k' =
      if k' = k then some ((groups.lookup k).getD [] ++ [v]) else groups.lookup k' := by
  induction groups with
  | nil =>
    by_cases h : k' = k
    · simp [push, h]
    · simp [push, List.lookup_cons, h, beq_false_of_ne h]
  | cons g rest ih =>
    obtain ⟨r, members⟩ := g
    unfold push
    by_cases h : r = k
    · subst h
      rw [if_pos rfl]
      by_cases h' : k' = r
      · simp [h']
      · simp [List.lookup_cons, h', beq_false_of_ne h']
    · rw [if_neg h]
      by_cases h' : k' = r
      · subst h'
        simp [h]
      · by_cases hk : k' = k
        · subst hk
          simp [List.lookup_cons, beq_false_of_ne h', ih]
        · simp [List.lookup_cons, beq_false_of_ne h', ih, hk]

theorem collect_snoc (key : V → K) (vs : List V) (v : V) :
    collect key (vs ++ [v]) = push (collect key vs) (key v) v := by
  rw [collect, collect, List.foldl_concat]

/-- A key has the values that have it, in their order. -/
theorem collect_lookup (key : V → K) (vs : List V) (k : K) :
    (collect key vs).lookup k =
      if vs.filter (fun v => key v = k) = [] then none else some (vs.filter fun v => key v = k) := by
  induction vs using List.reverseRecOn with
  | nil => rfl
  | append_singleton vs v ih =>
    rw [collect_snoc, push_lookup]
    by_cases h : k = key v
    · subst h
      rw [if_pos rfl, ih]
      split
      · rename_i hnil
        simp [hnil]
      · simp
    · have h' : ¬ key v = k := fun h' => h h'.symm
      rw [if_neg h, ih]
      simp [h']

theorem collect_nodup (key : V → K) (vs : List V) : ((collect key vs).map Prod.fst).Nodup := by
  induction vs using List.reverseRecOn with
  | nil => exact List.nodup_nil
  | append_singleton vs v ih =>
    rw [collect_snoc, push_keys]
    split
    · exact ih
    · rename_i hnot
      rw [List.nodup_append']
      exact ⟨ih, List.nodup_singleton _, by simpa using hnot⟩

/-- With each key once, a lookup finds the entries. -/
theorem entryAt_eq_some_iff {groups : List (K × List V)} (h : (groups.map Prod.fst).Nodup) {k : K} {members : List V} :
    entryAt groups k = some members ↔ (k, members) ∈ groups := by
  unfold entryAt
  induction groups with
  | nil => simp
  | cons g rest ih =>
    obtain ⟨r, ms⟩ := g
    rw [List.map_cons, List.nodup_cons] at h
    by_cases hk : k = r
    · subst hk
      have hnot : (k, members) ∉ rest := fun hin => h.1 (List.mem_map.mpr ⟨_, hin, rfl⟩)
      simp only [List.lookup_cons_self, Option.some_inj, List.mem_cons, Prod.mk.injEq, true_and, hnot, or_false]
      exact eq_comm
    · simp [List.lookup_cons, beq_false_of_ne hk, hk, ih h.2]

theorem mem_collect {key : V → K} {vs : List V} {k : K} {members : List V} :
    (k, members) ∈ collect key vs ↔ members ≠ [] ∧ members = vs.filter fun v => key v = k := by
  rw [← entryAt_eq_some_iff (collect_nodup key vs), entryAt, collect_lookup]
  split
  · rename_i hnil
    rw [hnil]
    simp
  · rename_i hne
    rw [Option.some_inj]
    constructor
    · rintro rfl
      exact ⟨hne, rfl⟩
    · rintro ⟨-, rfl⟩
      rfl

end

/-! ## Near islands -/

def absDiff (a b : ℕ) : ℕ := max a b - min a b

/-- Gap between two boxes in pixels: 0 when they touch or overlap. -/
def boxGap (a b : Island) : ℕ :=
  max (max (b.x0 - a.x1) (a.x0 - b.x1)) (max (b.y0 - a.y1) (a.y0 - b.y1))

/-- Two edge pixels within `gap` of each other, looked for in the cells around. -/
def near (a b : Island) (gap : ℕ) : Bool :=
  if boxGap a b > gap then false
  else
    let cell := max gap 1
    let grid := collect (fun q : Pixel => (q.1 / cell, q.2 / cell)) b.edge
    a.edge.any fun p =>
      let gx := p.1 / cell
      let gy := p.2 / cell
      (List.range' (gx - 1) (gx + 1 + 1 - (gx - 1))).any fun cx =>
        (List.range' (gy - 1) (gy + 1 + 1 - (gy - 1))).any fun cy =>
          match entryAt grid (cx, cy) with
          | some pts => pts.any fun q => max (absDiff q.1 p.1) (absDiff q.2 p.2) ≤ gap
          | none => false

/-- Within `gap` of each other, rows and columns counted alike. -/
def Within (gap : ℕ) (p q : Pixel) : Prop := max (absDiff q.1 p.1) (absDiff q.2 p.2) ≤ gap

instance (gap : ℕ) (p q : Pixel) : Decidable (Within gap p q) := inferInstanceAs (Decidable (_ ≤ _))

theorem within_iff {gap : ℕ} {p q : Pixel} :
    Within gap p q ↔ p.1 ≤ q.1 + gap ∧ q.1 ≤ p.1 + gap ∧ p.2 ≤ q.2 + gap ∧ q.2 ≤ p.2 + gap := by
  unfold Within absDiff
  omega

theorem Within.symm {gap : ℕ} {p q : Pixel} (h : Within gap p q) : Within gap q p := by
  rw [within_iff] at h ⊢
  omega

/-- Numbers no farther apart than a cell are in cells side by side. -/
theorem cells_near {cell a b : ℕ} (hcell : 0 < cell) (h : a ≤ b + cell) : a / cell ≤ b / cell + 1 := by
  rw [← Nat.add_div_right b hcell]
  exact Nat.div_le_div_right h

theorem mem_cells {g c : ℕ} : c ∈ List.range' (g - 1) (g + 1 + 1 - (g - 1)) ↔ g ≤ c + 1 ∧ c ≤ g + 1 := by
  rw [List.mem_range'_1]
  omega

/-- The cells lose no pair of edge pixels. -/
theorem near_edges {a b : Island} {gap : ℕ} :
    near a b gap = true ↔ boxGap a b ≤ gap ∧ ∃ p ∈ a.edge, ∃ q ∈ b.edge, Within gap p q := by
  unfold near
  split
  · rename_i hfar
    exact iff_of_false Bool.false_ne_true fun h => absurd h.1 (not_le.mpr hfar)
  · rename_i hbox
    rw [and_iff_right (not_lt.mp hbox)]
    simp only [List.any_eq_true]
    refine exists_congr fun p => and_congr_right fun _ => ?_
    constructor
    · rintro ⟨cx, _, cy, _, h⟩
      split at h
      · rename_i pts hpts
        obtain ⟨q, hq, hwithin⟩ := List.any_eq_true.mp h
        have hmem := (mem_collect.mp ((entryAt_eq_some_iff (collect_nodup _ _)).mp hpts)).2
        rw [hmem, List.mem_filter] at hq
        exact ⟨q, hq.1, of_decide_eq_true hwithin⟩
      · cases h
    · rintro ⟨q, hq, hwithin⟩
      have hpos : 0 < max gap 1 := by omega
      have hle := within_iff.mp hwithin
      refine ⟨q.1 / max gap 1, mem_cells.mpr ⟨cells_near hpos (by omega), cells_near hpos (by omega)⟩,
        q.2 / max gap 1, mem_cells.mpr ⟨cells_near hpos (by omega), cells_near hpos (by omega)⟩, ?_⟩
      have hin : q ∈ b.edge.filter fun v => decide ((v.1 / max gap 1, v.2 / max gap 1) = (q.1 / max gap 1, q.2 / max gap 1)) := by
        rw [List.mem_filter]
        exact ⟨hq, decide_eq_true rfl⟩
      rw [(entryAt_eq_some_iff (collect_nodup _ _)).mpr (mem_collect.mpr ⟨List.ne_nil_of_mem hin, rfl⟩)]
      exact List.any_eq_true.mpr ⟨q, hin, decide_eq_true hwithin⟩

section
variable {img : Sheet}

/-- How far apart two pixels are, step by step. -/
def steps (p q : Pixel) : ℕ := absDiff p.1 q.1 + absDiff p.2 q.2

/-- A step from one pixel towards another brings them no farther apart. -/
theorem exists_closer {p q : Pixel} (hp : InImage img p) (h : p ≠ q) :
    ∃ n ∈ neighbours p, steps n q < steps p q ∧ ∀ gap, Within gap p q → Within gap n q := by
  obtain ⟨px, py⟩ := p
  obtain ⟨qx, qy⟩ := q
  have hw := img.width_lt
  have hh := img.height_lt
  obtain ⟨hpx, hpy⟩ := hp
  dsimp only at hpx hpy
  have hcases : px < qx ∨ qx < px ∨ py < qy ∨ qy < py := by
    by_contra hnot
    exact h (Prod.ext (by dsimp only; omega) (by dsimp only; omega))
  simp only [neighbours, steps, absDiff, within_iff]
  obtain hlt | hlt | hlt | hlt := hcases
  · exact ⟨(px + 1, py), by simp, by dsimp only; omega, by dsimp only; omega⟩
  · have hsub : wrappingSub px 1 = px - 1 := by
      unfold wrappingSub
      omega
    exact ⟨(px - 1, py), by simp [hsub], by dsimp only; omega, by dsimp only; omega⟩
  · exact ⟨(px, py + 1), by simp, by dsimp only; omega, by dsimp only; omega⟩
  · have hsub : wrappingSub py 1 = py - 1 := by
      unfold wrappingSub
      omega
    exact ⟨(px, py - 1), by simp [hsub], by dsimp only; omega, by dsimp only; omega⟩

/-- The pixels of an island: opaque, and closed under steps. -/
structure Closed (img : Sheet) (px : List Pixel) : Prop where
  isOpaque : ∀ p ∈ px, Opaque img p
  step : ∀ p ∈ px, ∀ q, Adjacent img p q → q ∈ px

theorem Closed.inner {px : List Pixel} (h : Closed img px) {p : Pixel} (hp : p ∈ px) (hedge : ¬ AtEdge img p) :
    ∀ n ∈ neighbours p, n ∈ px := by
  intro n hn
  have hno : Opaque img n := by
    by_contra hnot
    exact hedge ⟨n, hn, hnot⟩
  have hpo := h.isOpaque p hp
  exact h.step p hp n ⟨hpo, hno, (mem_neighbours hpo.inImage hno.inImage).mp hn⟩

/-- Of the pairs of pixels that are near enough, one is a pair of edge pixels: from any other a step leads closer. -/
theorem exists_edges {pa pb : List Pixel} (ha : Closed img pa) (hb : Closed img pb) (hdisjoint : ∀ p ∈ pa, p ∉ pb)
    {gap : ℕ} {p q : Pixel} (hp : p ∈ pa) (hq : q ∈ pb) (h : Within gap p q) :
    ∃ p ∈ pa, ∃ q ∈ pb, AtEdge img p ∧ AtEdge img q ∧ Within gap p q := by
  induction hn : steps p q using Nat.strongRecOn generalizing p q with
  | ind n ih =>
    have hne : p ≠ q := fun hpq => hdisjoint p hp (hpq ▸ hq)
    by_cases hpe : AtEdge img p
    · by_cases hqe : AtEdge img q
      · exact ⟨p, hp, q, hq, hpe, hqe, h⟩
      · obtain ⟨q', hq', hless, hstay⟩ := exists_closer (hb.isOpaque q hq).inImage hne.symm
        have hcomm : ∀ a b, steps a b = steps b a := by
          intro a b
          simp only [steps, absDiff, max_comm, min_comm]
        exact ih (steps p q') (by rw [hcomm p q', ← hn, hcomm p q]; exact hless) hp (hb.inner hq hqe q' hq')
          (hstay gap h.symm).symm rfl
    · obtain ⟨p', hp', hless, hstay⟩ := exists_closer (ha.isOpaque p hp).inImage hne
      exact ih (steps p' q) (by rw [← hn]; exact hless) (ha.inner hp hpe p' hp') hq (hstay gap h) rfl

/-- Comparing edge pixels, cell by cell, is comparing all pixels. -/
theorem near_iff {a b : Island} {pa pb : List Pixel} (ha : Closed img pa) (hb : Closed img pb)
    (hdisjoint : ∀ p ∈ pa, p ∉ pb) (hma : Measures img [] pa a) (hmb : Measures img [] pb b) {gap : ℕ} :
    near a b gap = true ↔ ∃ p ∈ pa, ∃ q ∈ pb, Within gap p q := by
  rw [near_edges]
  constructor
  · rintro ⟨-, p, hp, q, hq, h⟩
    exact ⟨p, ((hma.edge p).mp hp).1, q, ((hmb.edge q).mp hq).1, h⟩
  · rintro ⟨p, hp, q, hq, h⟩
    constructor
    · have hax0 := hma.x0.2 p hp
      have hax1 := hma.x1.2 p hp
      have hay0 := hma.y0.2 p hp
      have hay1 := hma.y1.2 p hp
      have hbx0 := hmb.x0.2 q hq
      have hbx1 := hmb.x1.2 q hq
      have hby0 := hmb.y0.2 q hq
      have hby1 := hmb.y1.2 q hq
      rw [within_iff] at h
      unfold boxGap
      omega
    · obtain ⟨p, hp, q, hq, hpe, hqe, h⟩ := exists_edges ha hb hdisjoint hp hq h
      exact ⟨p, (hma.edge p).mpr ⟨hp, hpe⟩, q, (hmb.edge q).mpr ⟨hq, hqe⟩, h⟩

end

end Haruspex.ImageGen
