import Mathlib.Algebra.Order.Field.Rat
import Mathlib.Data.Rat.Cast.Order
import Mathlib.Tactic.FieldSimp
import Mathlib.Tactic.Linarith
import Mathlib.Tactic.NormNum
import Mathlib.Tactic.Ring

/-! The tiles where two materials meet (`image_gen/texture/transition.rs`), with numbers in place of floats. -/
namespace Haruspex.ImageGen.Transition
set_option autoImplicit false

/-! ## The code -/

structure Corners where
  nw : Bool
  ne : Bool
  sw : Bool
  se : Bool

/-- The corner bits of tile `i`; a set bit is A, or solid. -/
def corners (i : ℕ) : Corners := ⟨i.testBit 0, i.testBit 1, i.testBit 2, i.testBit 3⟩

def part (corner : Bool) : ℚ := if corner then 1 else 0

/-- How far along the tile a pixel is. -/
def along (n : ℕ) (p : ℤ) : ℚ := max 0 (min 1 ((p : ℚ) / ((n : ℚ) - 1)))

def blend (c : Corners) (u v : ℚ) : ℚ :=
  part c.nw * (1 - u) * (1 - v) + part c.ne * u * (1 - v) + part c.sw * (1 - u) * v + part c.se * u * v

/-- The noise all tiles of a set share, and how far it moves the border. -/
structure Border where
  n : ℕ
  field : ℕ → ℚ
  wobble : ℚ

def Border.noise (b : Border) (x y : ℤ) : ℚ := b.field (y % b.n * b.n + x % b.n).toNat

def rawAt (b : Border) (i : ℕ) (x y : ℤ) : Bool :=
  decide (blend (corners i) (along b.n x) (along b.n y) + b.wobble * 2 * (b.noise x y - 1 / 2) > 1 / 2)

def around : List (ℤ × ℤ) := [(0, -1), (-1, 0), (0, 1), (1, 0)]

/-- What is drawn at a pixel, where `raw` is what the border alone says: a pixel whose four neighbours all disagree takes their
side. -/
def withoutSpecks (raw : ℤ → ℤ → Bool) (x y : ℤ) : Bool :=
  raw x y != around.all fun d => raw (x + d.1) (y + d.2) != raw x y

def solidAt (b : Border) (i : ℕ) (x y : ℤ) : Bool := withoutSpecks (rawAt b i) x y

inductive View where
  | top
  | side

/-- A pixel of tile `i`, where it is drawn: `a` and `other` are the materials' own tiles. It panics where a top set has no other
material, which is refused before. -/
def pixel {P : Type} (clear : P) (b : Border) (view : View) (a : ℤ → ℤ → P) (other : Option (ℤ → ℤ → P)) (rim : Option P)
    (cap i : ℕ) (x y : ℤ) : Option P :=
  match view with
  | .top =>
    (if solidAt b i x y then some a else other).map fun source =>
      if solidAt b i x y && around.any fun d => !solidAt b i (x + d.1) (y + d.2) then rim.getD (source x y) else source x y
  | .side =>
    if !solidAt b i x y then some clear
    else
      let air := (List.range cap).any fun d => 0 ≤ y - (d + 1) && !solidAt b i x (y - (d + 1))
      let source := match other with
        | some o => if air then o else a
        | none => a
      some (if [(-1, 0), (1, 0), (0, 1)].any fun d => !solidAt b i (x + d.1) (y + d.2) then rim.getD (source x y) else source x y)

/-- The tile of a map whose corners are a grid's: rows first. -/
def tileOf (g : ℤ → ℤ → Bool) (tx ty : ℤ) : ℕ :=
  (g ty tx).toNat ||| (g ty (tx + 1)).toNat <<< 1 ||| (g (ty + 1) tx).toNat <<< 2 ||| (g (ty + 1) (tx + 1)).toNat <<< 3

/-! ## Tiles side by side -/

theorem corners_tileOf (g : ℤ → ℤ → Bool) (tx ty : ℤ) :
    corners (tileOf g tx ty) = ⟨g ty tx, g ty (tx + 1), g (ty + 1) tx, g (ty + 1) (tx + 1)⟩ := by
  unfold tileOf
  cases g ty tx <;> cases g ty (tx + 1) <;> cases g (ty + 1) tx <;> cases g (ty + 1) (tx + 1) <;> rfl

/-- The whole map at once: what the border says at a pixel of it. -/
def mapRaw (b : Border) (g : ℤ → ℤ → Bool) (x y : ℤ) : Bool := rawAt b (tileOf g (x / b.n) (y / b.n)) (x % b.n) (y % b.n)

variable {b : Border}

theorem along_start (h : 2 ≤ b.n) {p : ℤ} (hp : p ≤ 0) : along b.n p = 0 := by
  have hn : (0 : ℚ) < (b.n : ℚ) - 1 := by
    have : (2 : ℚ) ≤ (b.n : ℚ) := by exact_mod_cast h
    linarith
  have hle : (p : ℚ) / ((b.n : ℚ) - 1) ≤ 0 := div_nonpos_of_nonpos_of_nonneg (by exact_mod_cast hp) hn.le
  unfold along
  exact max_eq_left ((min_le_right _ _).trans hle)

theorem along_end (h : 2 ≤ b.n) {p : ℤ} (hp : (b.n : ℤ) - 1 ≤ p) : along b.n p = 1 := by
  have hn : (0 : ℚ) < (b.n : ℚ) - 1 := by
    have : (2 : ℚ) ≤ (b.n : ℚ) := by exact_mod_cast h
    linarith
  have hle : 1 ≤ (p : ℚ) / ((b.n : ℚ) - 1) := by
    rw [le_div_iff₀ hn, one_mul]
    exact_mod_cast hp
  unfold along
  rw [min_eq_left hle]
  exact max_eq_right zero_le_one

theorem blend_right (c : Corners) (v : ℚ) : blend c 1 v = part c.ne * (1 - v) + part c.se * v := by
  unfold blend
  ring

theorem blend_left (c : Corners) (v : ℚ) : blend c 0 v = part c.nw * (1 - v) + part c.sw * v := by
  unfold blend
  ring

theorem blend_bottom (c : Corners) (u : ℚ) : blend c u 1 = part c.sw * (1 - u) + part c.se * u := by
  unfold blend
  ring

theorem blend_top (c : Corners) (u : ℚ) : blend c u 0 = part c.nw * (1 - u) + part c.ne * u := by
  unfold blend
  ring

theorem rawAt_congr {i j : ℕ} {x y x' y' : ℤ} (hx : x % b.n = x' % b.n) (hy : y % b.n = y' % b.n)
    (h : blend (corners i) (along b.n x) (along b.n y) = blend (corners j) (along b.n x') (along b.n y')) :
    rawAt b i x y = rawAt b j x' y' := by
  unfold rawAt Border.noise
  rw [h, hx, hy]

/-- A pixel one past the left or the right edge is the neighbour's. -/
theorem rawAt_beside (h : 2 ≤ b.n) (g : ℤ → ℤ → Bool) (tx ty y : ℤ) :
    rawAt b (tileOf g tx ty) (-1) y = rawAt b (tileOf g (tx - 1) ty) (b.n - 1) y ∧
      rawAt b (tileOf g tx ty) b.n y = rawAt b (tileOf g (tx + 1) ty) 0 y := by
  constructor
  · refine rawAt_congr ?_ rfl ?_
    · rw [Int.sub_eq_add_neg, Int.add_comm, Int.add_emod_right]
    · rw [along_start h (by omega), along_end h (le_refl _), blend_left, blend_right, corners_tileOf, corners_tileOf]
      simp
  · refine rawAt_congr ?_ rfl ?_
    · simp
    · rw [along_start h (le_refl 0), along_end h (by omega), blend_left, blend_right, corners_tileOf, corners_tileOf]

/-- So is one past the upper or the lower edge. -/
theorem rawAt_above (h : 2 ≤ b.n) (g : ℤ → ℤ → Bool) (tx ty x : ℤ) :
    rawAt b (tileOf g tx ty) x (-1) = rawAt b (tileOf g tx (ty - 1)) x (b.n - 1) ∧
      rawAt b (tileOf g tx ty) x b.n = rawAt b (tileOf g tx (ty + 1)) x 0 := by
  constructor
  · refine rawAt_congr rfl ?_ ?_
    · rw [Int.sub_eq_add_neg, Int.add_comm, Int.add_emod_right]
    · rw [along_start h (by omega : (-1 : ℤ) ≤ 0), along_end h (le_refl ((b.n : ℤ) - 1)), blend_top, blend_bottom, corners_tileOf, corners_tileOf]
      simp
  · refine rawAt_congr rfl ?_ ?_
    · simp
    · rw [along_start h (le_refl (0 : ℤ)), along_end h (by omega : (b.n : ℤ) - 1 ≤ b.n), blend_top, blend_bottom, corners_tileOf, corners_tileOf]

theorem mapRaw_tile (g : ℤ → ℤ → Bool) (tx ty : ℤ) {x y : ℤ} (hx : 0 ≤ x ∧ x < b.n) (hy : 0 ≤ y ∧ y < b.n) :
    mapRaw b g (tx * b.n + x) (ty * b.n + y) = rawAt b (tileOf g tx ty) x y := by
  have hn : (b.n : ℤ) ≠ 0 := by omega
  have hdiv : ∀ {t p : ℤ}, 0 ≤ p ∧ p < b.n → (t * b.n + p) / b.n = t ∧ (t * b.n + p) % b.n = p := fun {t p} hp => by
    constructor
    · rw [Int.add_comm, Int.add_mul_ediv_right _ _ hn, Int.ediv_eq_zero_of_lt hp.1 hp.2, Int.zero_add]
    · rw [Int.add_comm, Int.add_mul_emod_self_right, Int.emod_eq_of_lt hp.1 hp.2]
  unfold mapRaw
  rw [(hdiv hx).1, (hdiv hx).2, (hdiv hy).1, (hdiv hy).2]

/-- What a tile takes to lie one pixel past its edge is what the map has there. -/
theorem mapRaw_near (h : 2 ≤ b.n) (g : ℤ → ℤ → Bool) (tx ty : ℤ) {x y : ℤ} (hx : 0 ≤ x ∧ x < b.n) (hy : 0 ≤ y ∧ y < b.n)
    {d : ℤ × ℤ} (hd : d ∈ around) :
    mapRaw b g (tx * b.n + x + d.1) (ty * b.n + y + d.2) = rawAt b (tileOf g tx ty) (x + d.1) (y + d.2) := by
  have hlast : 0 ≤ (b.n : ℤ) - 1 ∧ (b.n : ℤ) - 1 < b.n := by omega
  have hfirst : 0 ≤ (0 : ℤ) ∧ (0 : ℤ) < b.n := by omega
  rw [Int.add_assoc, Int.add_assoc]
  unfold around at hd
  simp only [List.mem_cons, List.not_mem_nil, or_false] at hd
  rcases hd with rfl | rfl | rfl | rfl
  · rw [Int.add_zero]
    by_cases hedge : y = 0
    · have hy' : ty * b.n + (y + -1) = (ty - 1) * b.n + (b.n - 1) := by
        rw [hedge]
        ring
      rw [hy', mapRaw_tile g tx (ty - 1) hx hlast, hedge]
      exact (rawAt_above h g tx ty x).1.symm
    · exact mapRaw_tile g tx ty hx (by omega)
  · rw [Int.add_zero]
    by_cases hedge : x = 0
    · have hx' : tx * b.n + (x + -1) = (tx - 1) * b.n + (b.n - 1) := by
        rw [hedge]
        ring
      rw [hx', mapRaw_tile g (tx - 1) ty hlast hy, hedge]
      exact (rawAt_beside h g tx ty y).1.symm
    · exact mapRaw_tile g tx ty (by omega) hy
  · rw [Int.add_zero]
    by_cases hedge : y = b.n - 1
    · have hy' : ty * b.n + (y + 1) = (ty + 1) * b.n + 0 := by
        rw [hedge]
        ring
      rw [hy', mapRaw_tile g tx (ty + 1) hx hfirst, hedge]
      exact ((rawAt_above h g tx ty x).2.symm).trans (by rw [Int.sub_add_cancel])
    · exact mapRaw_tile g tx ty hx (by omega)
  · rw [Int.add_zero]
    by_cases hedge : x = b.n - 1
    · have hx' : tx * b.n + (x + 1) = (tx + 1) * b.n + 0 := by
        rw [hedge]
        ring
      rw [hx', mapRaw_tile g (tx + 1) ty hfirst hy, hedge]
      exact ((rawAt_beside h g tx ty y).2.symm).trans (by rw [Int.sub_add_cancel])
    · exact mapRaw_tile g tx ty (by omega) hy

/-- Tiles laid side by side by their corners are one picture: where each of them draws A and where B is what is drawn where the
whole map's border is followed at once, specks left out. -/
theorem tiles_meet (b : Border) (h : 2 ≤ b.n) (g : ℤ → ℤ → Bool) (tx ty x y : ℤ) (hx : 0 ≤ x ∧ x < b.n) (hy : 0 ≤ y ∧ y < b.n) :
    solidAt b (tileOf g tx ty) x y = withoutSpecks (mapRaw b g) (tx * b.n + x) (ty * b.n + y) := by
  have hhere := mapRaw_tile g tx ty hx hy
  have hall : (around.all fun d => mapRaw b g (tx * b.n + x + d.1) (ty * b.n + y + d.2) != rawAt b (tileOf g tx ty) x y) =
      around.all fun d => rawAt b (tileOf g tx ty) (x + d.1) (y + d.2) != rawAt b (tileOf g tx ty) x y := by
    rw [Bool.eq_iff_iff, List.all_eq_true, List.all_eq_true]
    exact forall_congr' fun d => forall_congr' fun hd => by rw [mapRaw_near h g tx ty hx hy hd]
  unfold solidAt withoutSpecks
  rw [hhere, hall]

theorem tiles_meet_sample :
    solidAt ⟨8, fun k => if k % 3 = 0 then 1 else 0, 1 / 4⟩ (tileOf (fun _ x => x = 1) 0 0) 7 3 =
      withoutSpecks (mapRaw ⟨8, fun k => if k % 3 = 0 then 1 else 0, 1 / 4⟩ fun _ x => x = 1) (0 * 8 + 7) (0 * 8 + 3) :=
  tiles_meet ⟨8, fun k => if k % 3 = 0 then 1 else 0, 1 / 4⟩ (by decide) (fun _ x => x = 1) 0 0 7 3 (by decide) (by decide)

/-! ## Tiles of one material -/

/-- The border may wander, but not into a tile of one material (`validate_edge` bounds the wobble). -/
structure Tame (b : Border) : Prop where
  wobble : 0 ≤ b.wobble ∧ b.wobble ≤ 1 / 4
  field : ∀ k, 0 ≤ b.field k ∧ b.field k ≤ 1

theorem rawAt_uniform (hb : Tame b) {i : ℕ} {m : Bool} (hi : corners i = ⟨m, m, m, m⟩) (x y : ℤ) : rawAt b i x y = m := by
  obtain ⟨hlow, hhigh⟩ := hb.wobble
  obtain ⟨hfloor, hceil⟩ := hb.field (y % b.n * b.n + x % b.n).toNat
  have hblend : blend (corners i) (along b.n x) (along b.n y) = part m := by
    rw [hi]
    unfold blend
    ring
  unfold rawAt Border.noise
  rw [hblend]
  generalize b.field (y % b.n * b.n + x % b.n).toNat = f at hfloor hceil
  have hleast : -(1 / 4) ≤ b.wobble * 2 * (f - 1 / 2) := by nlinarith
  have hmost : b.wobble * 2 * (f - 1 / 2) ≤ 1 / 4 := by nlinarith
  cases m with
  | true =>
    refine decide_eq_true ?_
    change 1 + b.wobble * 2 * (f - 1 / 2) > 1 / 2
    linarith
  | false =>
    refine decide_eq_false ?_
    change ¬ 0 + b.wobble * 2 * (f - 1 / 2) > 1 / 2
    linarith

theorem solidAt_uniform (hb : Tame b) {i : ℕ} {m : Bool} (hi : corners i = ⟨m, m, m, m⟩) (x y : ℤ) : solidAt b i x y = m := by
  unfold solidAt withoutSpecks around
  simp only [rawAt_uniform hb hi]
  simp

end Haruspex.ImageGen.Transition
