import Mathlib.Algebra.BigOperators.Group.Finset.Basic
import Mathlib.Algebra.Order.Ring.Abs
import Mathlib.Algebra.Order.BigOperators.Group.Finset
import Mathlib.Data.Int.ModEq
import Mathlib.Order.Interval.Finset.Nat

/-! The cells of a repeating texture (`image_gen/texture/noise.rs`, `image_gen/texture/layers.rs`). -/
namespace Haruspex.ImageGen
set_option autoImplicit false

/-! ## Cells in a row -/

/-- A product in 32 bits. -/
def mul32 (a b : ℕ) : ℕ := a * b % 2 ^ 32

def divCeil (a b : ℕ) : ℕ := (a + b - 1) / b

/-- `count.clamp(1, n)` -/
def clampCount (count n : ℕ) : ℕ := min (max count 1) n

/-- The first pixel of a cell. -/
def cellStart (n count cell : ℕ) : ℕ := divCeil (mul32 cell n) count

/-- The cell of a pixel, and where the pixel is in it. -/
def cellOf (x n count : ℕ) : ℕ × ℕ :=
  let count := clampCount count n
  let cell := mul32 x count / n
  (cell, x - cellStart n count cell)

def cellLen (cell n count : ℕ) : ℕ :=
  let count := clampCount count n
  min (cellStart n count (cell + 1)) n - cellStart n count cell

/-- The pixels of a cell. -/
def pixels (n count cell : ℕ) : Finset ℕ := (Finset.range n).filter fun x => (cellOf x n count).1 = cell

section
variable {n count : ℕ}

theorem clampCount_le (count n : ℕ) : clampCount count n ≤ n := min_le_right _ _

theorem clampCount_pos (h : 1 ≤ n) : 0 < clampCount count n := by
  unfold clampCount
  omega

theorem mul32_eq {a b : ℕ} (ha : a ≤ n) (hb : b ≤ n) (hn : n * n < 2 ^ 32) : mul32 a b = a * b :=
  Nat.mod_eq_of_lt ((Nat.mul_le_mul ha hb).trans_lt hn)

theorem le_divCeil_iff {a b x : ℕ} (hb : 0 < b) : divCeil a b ≤ x ↔ a ≤ x * b := by
  unfold divCeil
  rw [← Nat.lt_succ_iff, Nat.div_lt_iff_lt_mul hb, Nat.succ_mul]
  omega

/-- A pixel is in a cell when it is between the start of the cell and that of the next one. -/
theorem cellOf_eq_iff (h : 1 ≤ n) (hn : n * n < 2 ^ 32) {x cell : ℕ} (hx : x < n) (hcell : cell < clampCount count n) :
    (cellOf x n count).1 = cell ↔
      cellStart n (clampCount count n) cell ≤ x ∧ x < cellStart n (clampCount count n) (cell + 1) := by
  have hcount := clampCount_le count n
  have hpos := @clampCount_pos n count h
  unfold cellOf cellStart
  dsimp only
  rw [mul32_eq hx.le hcount hn, mul32_eq (hcell.le.trans hcount) le_rfl hn,
    mul32_eq (Nat.succ_le_of_lt (hcell.trans_le hcount)) le_rfl hn, le_divCeil_iff hpos, ← not_le, le_divCeil_iff hpos,
    not_le, Nat.div_eq_iff h]
  rw [Nat.succ_mul]
  omega

theorem cellOf_lt (h : 1 ≤ n) (hn : n * n < 2 ^ 32) {x : ℕ} (hx : x < n) :
    (cellOf x n count).1 < clampCount count n := by
  unfold cellOf
  dsimp only
  rw [mul32_eq hx.le (clampCount_le count n) hn, Nat.div_lt_iff_lt_mul h, Nat.mul_comm]
  exact Nat.mul_lt_mul_of_pos_left hx (clampCount_pos h)

theorem cellStart_eq (hn : n * n < 2 ^ 32) {cell : ℕ} (hcell : cell ≤ clampCount count n) :
    cellStart n (clampCount count n) cell = divCeil (cell * n) (clampCount count n) := by
  rw [cellStart, mul32_eq (hcell.trans (clampCount_le count n)) le_rfl hn]

theorem cellStart_last (h : 1 ≤ n) (hn : n * n < 2 ^ 32) :
    cellStart n (clampCount count n) (clampCount count n) = n := by
  have hpos := @clampCount_pos n count h
  rw [cellStart_eq hn le_rfl]
  refine le_antisymm ((le_divCeil_iff hpos).mpr (Nat.mul_comm _ _).le) ?_
  have hle := (le_divCeil_iff hpos).mp (le_refl (divCeil (clampCount count n * n) (clampCount count n)))
  exact Nat.le_of_mul_le_mul_right ((Nat.mul_comm _ _).trans_le hle) hpos

/-- A cell has a pixel at least, as there are no more cells than pixels. -/
theorem cellStart_lt (h : 1 ≤ n) (hn : n * n < 2 ^ 32) {cell : ℕ} (hcell : cell < clampCount count n) :
    cellStart n (clampCount count n) cell < cellStart n (clampCount count n) (cell + 1) := by
  have hpos := @clampCount_pos n count h
  have hcount := clampCount_le count n
  rw [cellStart_eq hn hcell.le, cellStart_eq hn hcell, ← not_le, le_divCeil_iff hpos]
  unfold divCeil
  have hdiv := Nat.div_mul_le_self (cell * n + clampCount count n - 1) (clampCount count n)
  rw [Nat.succ_mul]
  omega

theorem cellStart_mono (h : 1 ≤ n) (hn : n * n < 2 ^ 32) {a b : ℕ} (hab : a ≤ b) (hb : b ≤ clampCount count n) :
    cellStart n (clampCount count n) a ≤ cellStart n (clampCount count n) b := by
  induction b, hab using Nat.le_induction with
  | base => exact le_rfl
  | succ b hab ih => exact (ih (by omega)).trans (cellStart_lt h hn hb).le

theorem pixels_eq (h : 1 ≤ n) (hn : n * n < 2 ^ 32) {cell : ℕ} (hcell : cell < clampCount count n) :
    pixels n count cell =
      Finset.Ico (cellStart n (clampCount count n) cell) (cellStart n (clampCount count n) (cell + 1)) := by
  have hlast := cellStart_mono h hn (Nat.succ_le_of_lt hcell) le_rfl
  rw [cellStart_last h hn] at hlast
  ext x
  rw [pixels, Finset.mem_filter, Finset.mem_range, Finset.mem_Ico]
  constructor
  · rintro ⟨hx, hx'⟩
    exact (cellOf_eq_iff h hn hx hcell).mp hx'
  · rintro ⟨hlow, hhigh⟩
    have hx : x < n := hhigh.trans_le hlast
    exact ⟨hx, (cellOf_eq_iff h hn hx hcell).mpr ⟨hlow, hhigh⟩⟩

end

/-- The cells cut a row of pixels into consecutive parts, each with its pixels counted. -/
structure Partition (n count : ℕ) : Prop where
  below : ∀ x < n, (cellOf x n count).1 < clampCount count n
  ordered : ∀ x y, x ≤ y → y < n → (cellOf x n count).1 ≤ (cellOf y n count).1
  nonempty : ∀ cell < clampCount count n, (pixels n count cell).Nonempty
  offset : ∀ x < n, (cellOf x n count).2 = ((pixels n count (cellOf x n count).1).filter (· < x)).card
  length : ∀ cell < clampCount count n, cellLen cell n count = (pixels n count cell).card
  total : ∑ cell ∈ Finset.range (clampCount count n), cellLen cell n count = n

theorem cellOf_partition {n count : ℕ} (h : 1 ≤ n) (hn : n * n < 2 ^ 32) : Partition n count := by
  have hlength : ∀ cell < clampCount count n, cellLen cell n count = (pixels n count cell).card := by
    intro cell hcell
    have hlast := cellStart_mono h hn (Nat.succ_le_of_lt hcell) le_rfl
    rw [cellStart_last h hn] at hlast
    rw [pixels_eq h hn hcell, Nat.card_Ico]
    unfold cellLen
    dsimp only
    rw [min_eq_left hlast]
  refine ⟨fun x hx => cellOf_lt h hn hx, ?_, ?_, ?_, hlength, ?_⟩
  · intro x y hxy hy
    unfold cellOf
    dsimp only
    rw [mul32_eq (hxy.trans hy.le) (clampCount_le count n) hn, mul32_eq hy.le (clampCount_le count n) hn]
    exact Nat.div_le_div_right (Nat.mul_le_mul_right _ hxy)
  · intro cell hcell
    rw [pixels_eq h hn hcell, Finset.nonempty_Ico]
    exact cellStart_lt h hn hcell
  · intro x hx
    have hcell := @cellOf_lt n count h hn x hx
    obtain ⟨hlow, hhigh⟩ := (cellOf_eq_iff h hn hx hcell).mp rfl
    have hfilter : (pixels n count (cellOf x n count).1).filter (· < x) =
        Finset.Ico (cellStart n (clampCount count n) (cellOf x n count).1) x := by
      ext y
      rw [Finset.mem_filter, pixels_eq h hn hcell, Finset.mem_Ico, Finset.mem_Ico]
      omega
    rw [hfilter, Nat.card_Ico]
    rfl
  · rw [Finset.sum_congr rfl fun cell hcell => hlength cell (Finset.mem_range.mp hcell)]
    have hcard := Finset.card_eq_sum_card_fiberwise (s := Finset.range n) (t := Finset.range (clampCount count n))
      (f := fun x => (cellOf x n count).1)
      fun x hx => by simpa using cellOf_lt h hn (by simpa using hx)
    rw [Finset.card_range] at hcard
    exact hcard.symm

/-! ## Herringbone -/

/-- The origins of bricks. -/
def onLattice (o : ℤ × ℤ) : Bool := (o.1 + o.2) % 2 = 0 ∧ (o.1 - o.2) % 4 = 0

/-- The origins a unit square's brick may have, each with whether it is vertical. -/
def origins (cx cy : ℤ) : List ((ℤ × ℤ) × Bool) :=
  [((cx, cy), false), ((cx - 1, cy), false), ((cx, cy - 1), true), ((cx, cy - 2), true)]

/-- The brick a unit square belongs to; `none` is `unreachable!`. -/
def herringboneBrick (cx cy : ℤ) : Option ((ℤ × ℤ) × Bool) := (origins cx cy).find? fun b => onLattice b.1

/-- A horizontal brick covers its origin and the square to its right, a vertical one the two squares below it. -/
def squares (b : (ℤ × ℤ) × Bool) : (ℤ × ℤ) × (ℤ × ℤ) :=
  if b.2 then ((b.1.1, b.1.2 + 1), (b.1.1, b.1.2 + 2)) else (b.1, (b.1.1 + 1, b.1.2))

/-- `(ox.rem_euclid(units) * units + oy.rem_euclid(units)) * 2 + vertical` -/
def brickId (units : ℤ) (b : (ℤ × ℤ) × Bool) : ℤ :=
  (b.1.1 % units * units + b.1.2 % units) * 2 + if b.2 then 1 else 0

theorem onLattice_iff {o : ℤ × ℤ} : onLattice o = true ↔ (o.1 - o.2) % 4 = 0 := by
  unfold onLattice
  rw [decide_eq_true_eq]
  omega

/-- One of four numbers in a row is a multiple of four. -/
theorem origins_on_lattice (cx cy : ℤ) : ((origins cx cy).filter fun b => onLattice b.1).length = 1 := by
  unfold origins
  simp only [List.filter_cons, List.filter_nil, onLattice_iff]
  have hcases : (cx - cy) % 4 = 0 ∨ (cx - cy) % 4 = 1 ∨ (cx - cy) % 4 = 2 ∨ (cx - cy) % 4 = 3 := by omega
  obtain h | h | h | h := hcases
  · rw [if_pos h, if_neg (by omega), if_neg (by omega), if_neg (by omega)]
    rfl
  · rw [if_neg (by omega), if_pos (by omega), if_neg (by omega), if_neg (by omega)]
    rfl
  · rw [if_neg (by omega), if_neg (by omega), if_neg (by omega), if_pos (by omega)]
    rfl
  · rw [if_neg (by omega), if_neg (by omega), if_pos (by omega), if_neg (by omega)]
    rfl

/-- A square's brick is the one that covers it. -/
theorem herringboneBrick_iff {cx cy : ℤ} {b : (ℤ × ℤ) × Bool} :
    herringboneBrick cx cy = some b ↔ onLattice b.1 = true ∧ ((cx, cy) = (squares b).1 ∨ (cx, cy) = (squares b).2) := by
  have hcovers : ∀ b, b ∈ origins cx cy ↔ (cx, cy) = (squares b).1 ∨ (cx, cy) = (squares b).2 := by
    rintro ⟨⟨ox, oy⟩, vertical⟩
    cases vertical <;> simp [origins, squares] <;> omega
  have hunique := origins_on_lattice cx cy
  obtain ⟨found, hfound⟩ := List.length_eq_one_iff.mp hunique
  have hfirst : herringboneBrick cx cy = some found := by
    rw [herringboneBrick, ← List.head?_filter, hfound]
    rfl
  have hmem : b ∈ (origins cx cy).filter (fun b => onLattice b.1) ↔ b = found := by rw [hfound, List.mem_singleton]
  rw [hfirst, ← hcovers, Option.some_inj, eq_comm, ← hmem, List.mem_filter, and_comm]

theorem herringboneBrick_isSome (cx cy : ℤ) : ∃ b, herringboneBrick cx cy = some b := by
  obtain ⟨b, hb⟩ := List.length_eq_one_iff.mp (origins_on_lattice cx cy)
  refine ⟨b, ?_⟩
  rw [herringboneBrick, ← List.head?_filter, hb]
  rfl

/-! ## Bricks on the torus -/

/-- The number of a unit square's cell. -/
def cellId (units cx cy : ℤ) : Option ℤ := (herringboneBrick cx cy).map (brickId units)

/-- The same place on a torus of `units` by `units`. -/
def Congruent (units : ℤ) (s t : ℤ × ℤ) : Prop := s.1 ≡ t.1 [ZMOD units] ∧ s.2 ≡ t.2 [ZMOD units]

/-- A brick moved along. -/
def shift (i j : ℤ) (b : (ℤ × ℤ) × Bool) : (ℤ × ℤ) × Bool := ((b.1.1 + i, b.1.2 + j), b.2)

section
variable {units : ℤ}

theorem squares_shift (i j : ℤ) (b : (ℤ × ℤ) × Bool) :
    (squares (shift i j b)).1 = ((squares b).1.1 + i, (squares b).1.2 + j) ∧
      (squares (shift i j b)).2 = ((squares b).2.1 + i, (squares b).2.2 + j) := by
  obtain ⟨⟨ox, oy⟩, vertical⟩ := b
  cases vertical <;> simp [squares, shift] <;> omega

theorem onLattice_shift {i j : ℤ} (hi : (4 : ℤ) ∣ i) (hj : (4 : ℤ) ∣ j) {b : (ℤ × ℤ) × Bool}
    (h : onLattice b.1 = true) : onLattice (shift i j b).1 = true := by
  rw [onLattice_iff] at h ⊢
  simp only [shift]
  omega

/-- A whole number of periods further on, the same bricks. -/
theorem herringboneBrick_shift {i j cx cy : ℤ} (hi : (4 : ℤ) ∣ i) (hj : (4 : ℤ) ∣ j) {b : (ℤ × ℤ) × Bool}
    (h : herringboneBrick cx cy = some b) : herringboneBrick (cx + i) (cy + j) = some (shift i j b) := by
  obtain ⟨hlattice, hsquare⟩ := herringboneBrick_iff.mp h
  obtain ⟨hfirst, hsecond⟩ := squares_shift i j b
  refine herringboneBrick_iff.mpr ⟨onLattice_shift hi hj hlattice, ?_⟩
  rw [hfirst, hsecond]
  refine hsquare.imp (fun h => ?_) (fun h => ?_) <;> rw [← h]

theorem Congruent.exists_shift {s t : ℤ × ℤ} (h : Congruent units s t) :
    ∃ i j, units ∣ i ∧ units ∣ j ∧ t = (s.1 + i, s.2 + j) :=
  ⟨t.1 - s.1, t.2 - s.2, h.1.dvd, h.2.dvd, by ext <;> simp⟩

theorem congruent_add {i j : ℤ} (hi : units ∣ i) (hj : units ∣ j) (s : ℤ × ℤ) :
    Congruent units s (s.1 + i, s.2 + j) := by
  constructor
  · exact Int.modEq_iff_dvd.mpr (by simpa using hi)
  · exact Int.modEq_iff_dvd.mpr (by simpa using hj)

theorem brickId_shift {i j : ℤ} (hi : units ∣ i) (hj : units ∣ j) (b : (ℤ × ℤ) × Bool) :
    brickId units (shift i j b) = brickId units b := by
  obtain ⟨k, rfl⟩ := hi
  obtain ⟨l, rfl⟩ := hj
  simp only [brickId, shift, Int.add_mul_emod_self_left]
  rfl

/-- A number below the square of `units` is two digits. -/
theorem digits_unique {a b c d : ℤ} (hunits : 0 < units) (hb : 0 ≤ b ∧ b < units) (hd : 0 ≤ d ∧ d < units)
    (h : a * units + b = c * units + d) : a = c ∧ b = d := by
  have hac : a = c := by
    have h1 := Int.add_mul_ediv_right b a hunits.ne'
    have h2 := Int.add_mul_ediv_right d c hunits.ne'
    rw [Int.ediv_eq_zero_of_lt hb.1 hb.2, add_comm, h] at h1
    rw [Int.ediv_eq_zero_of_lt hd.1 hd.2, add_comm] at h2
    omega
  subst hac
  exact ⟨rfl, by omega⟩

/-- Two bricks of one number are the same brick, some periods apart. -/
theorem brickId_inj (hunits : 0 < units) {b b' : (ℤ × ℤ) × Bool} (h : brickId units b = brickId units b') :
    ∃ i j, units ∣ i ∧ units ∣ j ∧ b' = shift i j b := by
  unfold brickId at h
  have hkind : b.2 = b'.2 := by
    cases hb : b.2 <;> cases hb' : b'.2 <;> simp [hb, hb'] at h ⊢ <;> omega
  have hplace : b.1.1 % units * units + b.1.2 % units = b'.1.1 % units * units + b'.1.2 % units := by
    rw [hkind] at h
    omega
  obtain ⟨hx, hy⟩ := digits_unique hunits
    ⟨Int.emod_nonneg _ hunits.ne', Int.emod_lt_of_pos _ hunits⟩
    ⟨Int.emod_nonneg _ hunits.ne', Int.emod_lt_of_pos _ hunits⟩ hplace
  obtain ⟨i, j, hi, hj, hb⟩ := Congruent.exists_shift (s := b.1) (t := b'.1) ⟨hx, hy⟩
  refine ⟨i, j, hi, hj, ?_⟩
  rw [shift, ← hb, hkind]

/-- A number is one of the shades drawn for the tile. -/
theorem brickId_bound (hunits : 0 < units) (b : (ℤ × ℤ) × Bool) :
    0 ≤ brickId units b ∧ brickId units b < units * units * 2 := by
  have hx := Int.emod_nonneg b.1.1 hunits.ne'
  have hx' := Int.emod_lt_of_pos b.1.1 hunits
  have hy := Int.emod_nonneg b.1.2 hunits.ne'
  have hy' := Int.emod_lt_of_pos b.1.2 hunits
  have hlow : 0 ≤ b.1.1 % units * units := Int.mul_nonneg hx hunits.le
  have hrow : (b.1.1 % units + 1) * units ≤ units * units := Int.mul_le_mul_of_nonneg_right hx' hunits.le
  rw [Int.add_mul, Int.one_mul] at hrow
  unfold brickId
  split <;> omega

theorem cellId_congruent (hunits : (4 : ℤ) ∣ units) {s t : ℤ × ℤ} (h : Congruent units s t) :
    cellId units s.1 s.2 = cellId units t.1 t.2 := by
  obtain ⟨i, j, hi, hj, rfl⟩ := h.exists_shift
  obtain ⟨b, hb⟩ := herringboneBrick_isSome s.1 s.2
  rw [cellId, cellId, hb, herringboneBrick_shift (hunits.trans hi) (hunits.trans hj) hb, Option.map_some,
    Option.map_some, brickId_shift hi hj]

/-- A number is that of the squares of one brick. -/
theorem cellId_eq_iff (hpos : 0 < units) (hunits : (4 : ℤ) ∣ units) {s t : ℤ × ℤ} {b : (ℤ × ℤ) × Bool}
    (hb : herringboneBrick s.1 s.2 = some b) :
    cellId units t.1 t.2 = cellId units s.1 s.2 ↔ Congruent units (squares b).1 t ∨ Congruent units (squares b).2 t := by
  constructor
  · intro h
    obtain ⟨b', hb'⟩ := herringboneBrick_isSome t.1 t.2
    rw [cellId, cellId, hb, hb', Option.map_some, Option.map_some, Option.some_inj] at h
    obtain ⟨i, j, hi, hj, rfl⟩ := brickId_inj hpos h.symm
    obtain ⟨hfirst, hsecond⟩ := squares_shift i j b
    obtain ht | ht := (herringboneBrick_iff.mp hb').2
    · left
      have ht : t = ((squares b).1.1 + i, (squares b).1.2 + j) := by rw [← hfirst, ← ht]
      rw [ht]
      exact congruent_add hi hj _
    · right
      have ht : t = ((squares b).2.1 + i, (squares b).2.2 + j) := by rw [← hsecond, ← ht]
      rw [ht]
      exact congruent_add hi hj _
  · have hown : ∀ u, u = (squares b).1 ∨ u = (squares b).2 → cellId units u.1 u.2 = cellId units s.1 s.2 := by
      intro u hu
      have hbu := herringboneBrick_iff.mpr ⟨(herringboneBrick_iff.mp hb).1, hu⟩
      rw [cellId, cellId, hb, hbu]
    rintro (h | h)
    · rw [← cellId_congruent hunits h, hown _ (Or.inl rfl)]
    · rw [← cellId_congruent hunits h, hown _ (Or.inr rfl)]

/-- The two squares of a brick touch, and are two squares on the torus as well. -/
theorem squares_touch (h4 : 4 ≤ units) (b : (ℤ × ℤ) × Bool) :
    |(squares b).1.1 - (squares b).2.1| + |(squares b).1.2 - (squares b).2.2| = 1 ∧
      ¬ Congruent units (squares b).1 (squares b).2 := by
  obtain ⟨⟨ox, oy⟩, vertical⟩ := b
  have hone : ¬ units ∣ 1 := fun h => by have := Int.le_of_dvd one_pos h; omega
  cases vertical
  · refine ⟨by simp [squares], fun h => hone ?_⟩
    simpa [squares] using h.1.dvd
  · refine ⟨by simp [squares], fun h => hone ?_⟩
    have hdvd := h.2.dvd
    have hsub : (squares ((ox, oy), true)).2.2 - (squares ((ox, oy), true)).1.2 = 1 := by
      simp only [squares, if_true]
      omega
    rwa [hsub] at hdvd

end

/-- The bricks cover the plane, and a torus of `units` by `units`. -/
structure Herringbone (units : ℤ) : Prop where
  one : ∀ cx cy, ((origins cx cy).filter fun b => onLattice b.1).length = 1
  found : ∀ cx cy, ∃ b, herringboneBrick cx cy = some b
  covers : ∀ cx cy b, herringboneBrick cx cy = some b →
    ∀ ux uy, herringboneBrick ux uy = some b ↔ (ux, uy) = (squares b).1 ∨ (ux, uy) = (squares b).2
  touch : ∀ b, |(squares b).1.1 - (squares b).2.1| + |(squares b).1.2 - (squares b).2.2| = 1
  repeats : ∀ s t, Congruent units s t → cellId units s.1 s.2 = cellId units t.1 t.2
  shared : ∀ (s t : ℤ × ℤ) b, herringboneBrick s.1 s.2 = some b →
    (cellId units t.1 t.2 = cellId units s.1 s.2 ↔ Congruent units (squares b).1 t ∨ Congruent units (squares b).2 t)
  two : ∀ b, ¬ Congruent units (squares b).1 (squares b).2
  bound : ∀ b, 0 ≤ brickId units b ∧ brickId units b < units * units * 2

theorem herringbone_units {blocks : ℤ} (h : 1 ≤ blocks) : Herringbone (4 * blocks) where
  one := origins_on_lattice
  found := herringboneBrick_isSome
  covers := by
    intro cx cy b hb ux uy
    rw [herringboneBrick_iff, and_iff_right (herringboneBrick_iff.mp hb).1]
  touch b := (squares_touch (by omega : 4 ≤ 4 * blocks) b).1
  repeats s t := cellId_congruent ⟨blocks, rfl⟩
  shared s t b := cellId_eq_iff (by omega) ⟨blocks, rfl⟩
  two b := (squares_touch (by omega) b).2
  bound := brickId_bound (by omega)

/-- A texture's cells repeat without a seam, in a row and in a herringbone. -/
theorem layouts_repeat (n count : ℕ) (blocks : ℤ) (h : 1 ≤ n) (hn : n * max count n < 2 ^ 32) (hblocks : 1 ≤ blocks) :
    Partition n count ∧ Herringbone (4 * blocks) :=
  ⟨cellOf_partition h ((Nat.mul_le_mul_left n (le_max_right count n)).trans_lt hn), herringbone_units hblocks⟩

theorem layouts_repeat_small : Partition 8 3 ∧ Herringbone (4 * 2) :=
  layouts_repeat 8 3 2 (by decide) (by decide) (by decide)

end Haruspex.ImageGen
