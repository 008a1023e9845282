import Mathlib.Algebra.GroupWithZero.Nat
import Mathlib.Data.Finset.Prod
import Mathlib.Data.List.Nodup
import Mathlib.Logic.Function.Basic
import Mathlib.Logic.Relation
import Mathlib.Order.Interval.Finset.Nat

/-! The islands of opaque pixels on a sheet (`image_gen/split.rs`). -/
namespace Haruspex.ImageGen
set_option autoImplicit false

/-- Red, green, blue and alpha. -/
structure Rgba where
  red : UInt8
  green : UInt8
  blue : UInt8
  alpha : UInt8
  deriving DecidableEq

abbrev Pixel := ℕ × ℕ

structure RgbaImage where
  width : ℕ
  height : ℕ
  getPixel : ℕ → ℕ → Rgba

/-- An image whose pixels are counted in 32 bits, as a decoder's limits keep it. -/
structure Sheet extends RgbaImage where
  width_lt : width < 2 ^ 32
  height_lt : height < 2 ^ 32
  fits : width * height < 2 ^ 32

structure Island where
  x0 : ℕ
  y0 : ℕ
  x1 : ℕ
  y1 : ℕ
  area : ℕ
  sumX : ℕ
  sumY : ℕ
  /-- Pixels with a transparent or off-canvas neighbour. -/
  edge : List Pixel

/-- The label of each pixel number; `none` is `u32::MAX`. -/
abbrev Labels := ℕ → Option ℕ

def wrappingSub (a b : ℕ) : ℕ := (a + 2 ^ 32 - b) % 2 ^ 32

def InImage (img : Sheet) (p : Pixel) : Prop := p.1 < img.width ∧ p.2 < img.height

instance (img : Sheet) (p : Pixel) : Decidable (InImage img p) := inferInstanceAs (Decidable (_ ∧ _))

def Opaque (img : Sheet) (p : Pixel) : Prop := InImage img p ∧ (img.getPixel p.1 p.2).alpha ≠ 0

instance (img : Sheet) (p : Pixel) : Decidable (Opaque img p) := inferInstanceAs (Decidable (_ ∧ _))

def idx (img : Sheet) (p : Pixel) : ℕ := (p.2 * img.width + p.1) % 2 ^ 32

def neighbours (c : Pixel) : List Pixel :=
  [(wrappingSub c.1 1, c.2), (c.1 + 1, c.2), (c.1, wrappingSub c.2 1), (c.1, c.2 + 1)]

/-- One neighbour: off the island, labelled already, or labelled and put on the stack. -/
def spread (img : Sheet) (id : ℕ) (s : Labels × List Pixel × Bool) (n : Pixel) : Labels × List Pixel × Bool :=
  if ¬ Opaque img n then (s.1, s.2.1, true)
  else if s.1 (idx img n) ≠ none then s
  else (Function.update s.1 (idx img n) (some id), n :: s.2.1, s.2.2)

/-- A pixel counted in. -/
def visit (isl : Island) (c : Pixel) (onEdge : Bool) : Island where
  x0 := min isl.x0 c.1
  y0 := min isl.y0 c.2
  x1 := max isl.x1 c.1
  y1 := max isl.y1 c.2
  area := isl.area + 1
  sumX := isl.sumX + c.1
  sumY := isl.sumY + c.2
  edge := if onEdge then isl.edge ++ [c] else isl.edge

/-- The pixels of an image, row by row. -/
def allPixels (img : Sheet) : List Pixel :=
  (List.range img.height).flatMap fun y => (List.range img.width).map fun x => (x, y)

/-! ## Pixel numbers -/

section
variable {img : Sheet}

theorem Opaque.inImage {p : Pixel} (h : Opaque img p) : InImage img p := h.1

theorem mem_allPixels {p : Pixel} : p ∈ allPixels img ↔ InImage img p := by
  obtain ⟨x, y⟩ := p
  simp only [allPixels, InImage, List.mem_flatMap, List.mem_range, List.mem_map, Prod.mk.injEq]
  constructor
  · rintro ⟨y, hy, x, hx, rfl, rfl⟩
    exact ⟨hx, hy⟩
  · rintro ⟨hx, hy⟩
    exact ⟨y, hy, x, hx, rfl, rfl⟩

/-- The number of a pixel does not wrap. -/
theorem idx_eq {p : Pixel} (h : InImage img p) : idx img p = p.2 * img.width + p.1 := by
  have hrow : (p.2 + 1) * img.width ≤ img.height * img.width := Nat.mul_le_mul_right _ h.2
  have hfits := img.fits
  have hx := h.1
  rw [Nat.mul_comm img.width] at hfits
  rw [Nat.succ_mul] at hrow
  exact Nat.mod_eq_of_lt (by omega)

theorem idx_inj {p q : Pixel} (hp : InImage img p) (hq : InImage img q) (h : idx img p = idx img q) : p = q := by
  rw [idx_eq hp, idx_eq hq] at h
  have hmod := congrArg (· % img.width) h
  simp only [Nat.mul_add_mod_self_right, Nat.mod_eq_of_lt hp.1, Nat.mod_eq_of_lt hq.1] at hmod
  rw [hmod, Nat.add_right_cancel_iff] at h
  exact Prod.ext hmod (Nat.eq_of_mul_eq_mul_right (by have := hp.1; omega) h)

/-- A label put on a pixel is read there only. -/
theorem update_idx {label : Labels} {p q : Pixel} (hp : InImage img p) (hq : InImage img q) (l : Option ℕ) :
    Function.update label (idx img p) l (idx img q) = if q = p then l else label (idx img q) := by
  by_cases h : q = p
  · rw [h, if_pos rfl, Function.update_self]
  · rw [if_neg h, Function.update_of_ne fun hidx => h (idx_inj hq hp hidx)]

/-- The pixels with no label yet. -/
def unlabelled (img : Sheet) (label : Labels) : ℕ :=
  ((Finset.range img.width ×ˢ Finset.range img.height).filter fun p => label (idx img p) = none).card

theorem unlabelled_update {label : Labels} {p : Pixel} (hp : InImage img p) (hnone : label (idx img p) = none) (id : ℕ) :
    unlabelled img (Function.update label (idx img p) (some id)) + 1 = unlabelled img label := by
  have hmem : p ∈ (Finset.range img.width ×ˢ Finset.range img.height).filter fun p => label (idx img p) = none := by
    simp [hnone, hp.1, hp.2]
  have herase : ((Finset.range img.width ×ˢ Finset.range img.height).filter fun q =>
      Function.update label (idx img p) (some id) (idx img q) = none) =
      ((Finset.range img.width ×ˢ Finset.range img.height).filter fun p => label (idx img p) = none).erase p := by
    ext q
    simp only [Finset.mem_filter, Finset.mem_product, Finset.mem_range, Finset.mem_erase]
    constructor
    · rintro ⟨hq, hlabel⟩
      rw [update_idx hp hq] at hlabel
      split at hlabel
      · cases hlabel
      · exact ⟨by assumption, hq, hlabel⟩
    · rintro ⟨hne, hq, hlabel⟩
      exact ⟨hq, by rw [update_idx hp hq, if_neg hne, hlabel]⟩
  rw [unlabelled, unlabelled, herase, Finset.card_erase_add_one hmem]

/-- Every pixel put on the stack takes a label. -/
theorem spread_measure (id : ℕ) (s : Labels × List Pixel × Bool) (n : Pixel) :
    unlabelled img (spread img id s n).1 + (spread img id s n).2.1.length = unlabelled img s.1 + s.2.1.length := by
  unfold spread
  split
  · rfl
  · rename_i hsolid
    split
    · rfl
    · rename_i hlabel
      rw [not_not] at hsolid hlabel
      have hcount := unlabelled_update hsolid.inImage hlabel id
      simp only [List.length_cons]
      omega

theorem spreads_measure (id : ℕ) (ns : List Pixel) (s : Labels × List Pixel × Bool) :
    unlabelled img (ns.foldl (spread img id) s).1 + (ns.foldl (spread img id) s).2.1.length =
      unlabelled img s.1 + s.2.1.length := by
  induction ns generalizing s with
  | nil => rfl
  | cons n ns ih => rw [List.foldl_cons, ih, spread_measure]

end

/-! ## Filling -/

/-- The pixels reached from those on the stack take the label. -/
def fill (img : Sheet) (id : ℕ) (label : Labels) (stack : List Pixel) (isl : Island) : Labels × Island :=
  match stack with
  | [] => (label, isl)
  | c :: stack =>
    let s := (neighbours c).foldl (spread img id) (label, stack, false)
    fill img id s.1 s.2.1 (visit isl c s.2.2)
termination_by unlabelled img label + stack.length
decreasing_by
  have hmeasure := @spreads_measure img id (neighbours c) (label, stack, false)
  dsimp only at hmeasure ⊢
  rw [List.length_cons]
  omega

/-- One pixel of the scan: the first of an island fills it. -/
def scanPixel (img : Sheet) (s : Labels × List Island) (p : Pixel) : Labels × List Island :=
  if (img.getPixel p.1 p.2).alpha = 0 ∨ s.1 (idx img p) ≠ none then s
  else
    let id := s.2.length
    let isl : Island :=
      { x0 := p.1, y0 := p.2, x1 := p.1, y1 := p.2, area := 0, sumX := 0, sumY := 0, edge := [] }
    let filled := fill img id (Function.update s.1 (idx img p) (some id)) [p] isl
    (filled.1, s.2 ++ [filled.2])

/-- The label of each pixel, and the islands. -/
def islands (img : Sheet) : Labels × List Island := (allPixels img).foldl (scanPixel img) (fun _ => none, [])

/-! ## Islands as sets of pixels -/

/-- Side by side, or one above the other. -/
def Touching (p q : Pixel) : Prop :=
  (p.1 = q.1 ∧ (p.2 + 1 = q.2 ∨ q.2 + 1 = p.2)) ∨ (p.2 = q.2 ∧ (p.1 + 1 = q.1 ∨ q.1 + 1 = p.1))

def Adjacent (img : Sheet) (p q : Pixel) : Prop := Opaque img p ∧ Opaque img q ∧ Touching p q

/-- A path of opaque pixels from one to the other. -/
def Connected (img : Sheet) : Pixel → Pixel → Prop := Relation.ReflTransGen (Adjacent img)

/-- A transparent or off-canvas neighbour. -/
def AtEdge (img : Sheet) (p : Pixel) : Prop := ∃ n ∈ neighbours p, ¬ Opaque img n

/-- The least value of `f`, one pixel's. -/
def Least (f : Pixel → ℕ) (px : List Pixel) (m : ℕ) : Prop := (∃ p ∈ px, f p = m) ∧ ∀ p ∈ px, m ≤ f p

def Greatest (f : Pixel → ℕ) (px : List Pixel) (m : ℕ) : Prop := (∃ p ∈ px, f p = m) ∧ ∀ p ∈ px, f p ≤ m

/-- What an island's record says of its pixels, with the pixels its box starts from. -/
structure Measures (img : Sheet) (start px : List Pixel) (isl : Island) : Prop where
  x0 : Least Prod.fst (start ++ px) isl.x0
  y0 : Least Prod.snd (start ++ px) isl.y0
  x1 : Greatest Prod.fst (start ++ px) isl.x1
  y1 : Greatest Prod.snd (start ++ px) isl.y1
  area : isl.area = px.length
  sumX : isl.sumX = (px.map Prod.fst).sum
  sumY : isl.sumY = (px.map Prod.snd).sum
  edge : ∀ p, p ∈ isl.edge ↔ p ∈ px ∧ AtEdge img p

theorem Least.snoc {f : Pixel → ℕ} {px : List Pixel} {m : ℕ} (h : Least f px m) (c : Pixel) :
    Least f (px ++ [c]) (min m (f c)) := by
  obtain ⟨⟨p, hp, hm⟩, hle⟩ := h
  refine ⟨?_, ?_⟩
  · obtain hmin | hmin := le_total m (f c)
    · exact ⟨p, by simp [hp], by omega⟩
    · exact ⟨c, by simp, by omega⟩
  · intro q hq
    obtain hq | hq := List.mem_append.mp hq
    · exact (min_le_left _ _).trans (hle q hq)
    · rw [List.mem_singleton.mp hq]
      exact min_le_right _ _

theorem Greatest.snoc {f : Pixel → ℕ} {px : List Pixel} {m : ℕ} (h : Greatest f px m) (c : Pixel) :
    Greatest f (px ++ [c]) (max m (f c)) := by
  obtain ⟨⟨p, hp, hm⟩, hle⟩ := h
  refine ⟨?_, ?_⟩
  · obtain hmax | hmax := le_total m (f c)
    · exact ⟨c, by simp, by omega⟩
    · exact ⟨p, by simp [hp], by omega⟩
  · intro q hq
    obtain hq | hq := List.mem_append.mp hq
    · exact (hle q hq).trans (le_max_left _ _)
    · rw [List.mem_singleton.mp hq]
      exact le_max_right _ _

section
variable {img : Sheet}

theorem Measures.visit {start px : List Pixel} {isl : Island} (h : Measures img start px isl) {c : Pixel} {onEdge : Bool}
    (hedge : onEdge = true ↔ AtEdge img c) : Measures img start (px ++ [c]) (visit isl c onEdge) where
  x0 := by rw [← List.append_assoc]; exact h.x0.snoc c
  y0 := by rw [← List.append_assoc]; exact h.y0.snoc c
  x1 := by rw [← List.append_assoc]; exact h.x1.snoc c
  y1 := by rw [← List.append_assoc]; exact h.y1.snoc c
  area := by simp [ImageGen.visit, h.area]
  sumX := by simp [ImageGen.visit, h.sumX]
  sumY := by simp [ImageGen.visit, h.sumY]
  edge := by
    intro p
    unfold ImageGen.visit
    dsimp only
    split
    · rename_i hon
      have hc := hedge.mp hon
      simp only [List.mem_append, List.mem_singleton, h.edge]
      constructor
      · rintro (⟨hp, hat⟩ | rfl)
        · exact ⟨.inl hp, hat⟩
        · exact ⟨.inr rfl, hc⟩
      · rintro ⟨hp | rfl, hat⟩
        · exact .inl ⟨hp, hat⟩
        · exact .inr rfl
    · rename_i hon
      have hc : ¬ AtEdge img c := fun hat => hon (hedge.mpr hat)
      simp only [List.mem_append, List.mem_singleton, h.edge]
      constructor
      · rintro ⟨hp, hat⟩
        exact ⟨.inl hp, hat⟩
      · rintro ⟨hp | rfl, hat⟩
        · exact ⟨hp, hat⟩
        · exact absurd hat hc

theorem mem_neighbours {p q : Pixel} (hp : InImage img p) (hq : InImage img q) : q ∈ neighbours p ↔ Touching p q := by
  obtain ⟨px, py⟩ := p
  obtain ⟨qx, qy⟩ := q
  have hw := img.width_lt
  have hh := img.height_lt
  simp only [InImage] at hp hq
  simp only [neighbours, Touching, wrappingSub, List.mem_cons, List.not_mem_nil, Prod.mk.injEq, or_false]
  omega

theorem Touching.symm {p q : Pixel} (h : Touching p q) : Touching q p := by
  unfold Touching at h ⊢
  omega

theorem Connected.symm {p q : Pixel} (h : Connected img p q) : Connected img q p := by
  induction h with
  | refl => exact .refl
  | tail _ hadj ih => exact .head ⟨hadj.2.1, hadj.1, hadj.2.2.symm⟩ ih

/-- A path leaves an opaque pixel for opaque ones only. -/
theorem Connected.isOpaque {p q : Pixel} (h : Connected img p q) (hp : Opaque img p) : Opaque img q := by
  induction h with
  | refl => exact hp
  | tail _ hadj _ => exact hadj.2.1

/-! ## One pixel's neighbours -/

/-- The neighbours put on the stack, and what became of the labels. -/
structure Spread (img : Sheet) (id : ℕ) (ns : List Pixel) (s s' : Labels × List Pixel × Bool) (new : List Pixel) : Prop where
  nodup : new.Nodup
  stack : s'.2.1 = new ++ s.2.1
  pushed : ∀ q ∈ new, q ∈ ns ∧ Opaque img q ∧ s.1 (idx img q) = none
  label : ∀ q, InImage img q → s'.1 (idx img q) = if q ∈ new then some id else s.1 (idx img q)
  all : ∀ q ∈ ns, Opaque img q → s'.1 (idx img q) ≠ none
  onEdge : s'.2.2 = true ↔ s.2.2 = true ∨ ∃ n ∈ ns, ¬ Opaque img n

theorem spreads_spec (id : ℕ) (ns : List Pixel) (s : Labels × List Pixel × Bool) :
    ∃ new, Spread img id ns s (ns.foldl (spread img id) s) new := by
  induction ns generalizing s with
  | nil => exact ⟨[], List.nodup_nil, rfl, by simp, by simp, by simp, by simp⟩
  | cons n ns ih =>
    rw [List.foldl_cons]
    obtain ⟨new, hnew⟩ := ih (spread img id s n)
    by_cases hsolid : Opaque img n
    · by_cases hlabel : s.1 (idx img n) = none
      · have hspread : spread img id s n = (Function.update s.1 (idx img n) (some id), n :: s.2.1, s.2.2) := by
          rw [spread, if_neg (not_not.mpr hsolid), if_neg (not_not.mpr hlabel)]
        have hnext : ∀ q, InImage img q →
            (spread img id s n).1 (idx img q) = if q = n then some id else s.1 (idx img q) := by
          intro q hq
          rw [hspread]
          exact update_idx hsolid.inImage hq _
        have hother : ∀ q ∈ new, q ≠ n ∧ s.1 (idx img q) = none := by
          intro q hq
          obtain ⟨-, hq, hnone⟩ := hnew.pushed q hq
          rw [hnext q hq.inImage] at hnone
          split at hnone
          · cases hnone
          · exact ⟨by assumption, hnone⟩
        have hnotin : n ∉ new := fun h => (hother n h).1 rfl
        refine ⟨new ++ [n], ?_, ?_, ?_, ?_, ?_, ?_⟩
        · rw [List.nodup_append']
          exact ⟨hnew.nodup, List.nodup_singleton n, by simpa using hnotin⟩
        · rw [hnew.stack, hspread]
          simp
        · intro q hq
          obtain hq | hq := List.mem_append.mp hq
          · exact ⟨List.mem_cons_of_mem _ (hnew.pushed q hq).1, (hnew.pushed q hq).2.1, (hother q hq).2⟩
          · rw [List.mem_singleton.mp hq]
            exact ⟨List.mem_cons_self, hsolid, hlabel⟩
        · intro q hq
          rw [hnew.label q hq, hnext q hq]
          by_cases hqn : q = n <;> simp [hqn]
        · intro q hq hqo
          obtain rfl | hq := List.mem_cons.mp hq
          · rw [hnew.label q hqo.inImage, hnext q hqo.inImage]
            simp
          · exact hnew.all q hq hqo
        · rw [hnew.onEdge, hspread]
          simp [hsolid]
      · have hspread : spread img id s n = s := by
          rw [spread, if_neg (not_not.mpr hsolid), if_pos hlabel]
        rw [hspread] at hnew ⊢
        refine ⟨new, hnew.nodup, hnew.stack, ?_, hnew.label, ?_, ?_⟩
        · intro q hq
          exact ⟨List.mem_cons_of_mem _ (hnew.pushed q hq).1, (hnew.pushed q hq).2⟩
        · intro q hq hqo
          obtain rfl | hq := List.mem_cons.mp hq
          · rw [hnew.label q hqo.inImage]
            split
            · simp
            · exact hlabel
          · exact hnew.all q hq hqo
        · rw [hnew.onEdge]
          simp [hsolid]
    · have hspread : spread img id s n = (s.1, s.2.1, true) := by rw [spread, if_pos hsolid]
      rw [hspread] at hnew ⊢
      refine ⟨new, hnew.nodup, hnew.stack, ?_, hnew.label, ?_, ?_⟩
      · intro q hq
        exact ⟨List.mem_cons_of_mem _ (hnew.pushed q hq).1, (hnew.pushed q hq).2⟩
      · intro q hq hqo
        obtain rfl | hq := List.mem_cons.mp hq
        · exact absurd hqo hsolid
        · exact hnew.all q hq hqo
      · rw [hnew.onEdge]
        simp [hsolid]

/-! ## One island -/

/-- Labels given to one pixel of an island are given to all of it. -/
def Whole (img : Sheet) (label : Labels) : Prop :=
  ∀ p q, Adjacent img p q → label (idx img p) ≠ none → label (idx img q) ≠ none

/-- Half way through an island: the pixels counted in, and those on the stack. -/
structure Filling (img : Sheet) (id : ℕ) (old : Labels) (seed : Pixel) (done stack : List Pixel) (label : Labels)
    (isl : Island) : Prop where
  nodup : (done ++ stack).Nodup
  started : seed ∈ done ++ stack
  found : ∀ p ∈ done ++ stack, Opaque img p ∧ Connected img seed p ∧ old (idx img p) = none
  label : ∀ p, InImage img p → label (idx img p) = if p ∈ done ++ stack then some id else old (idx img p)
  closed : ∀ p ∈ done, ∀ q, Adjacent img p q → q ∈ done ++ stack
  measures : Measures img [seed] done isl

theorem Filling.step {id : ℕ} {old label : Labels} {seed c : Pixel} {done stack : List Pixel} {isl : Island}
    (hold : Whole img old) (h : Filling img id old seed done (c :: stack) label isl)
    {s : Labels × List Pixel × Bool} {new : List Pixel} (hs : Spread img id (neighbours c) (label, stack, false) s new) :
    Filling img id old seed (done ++ [c]) s.2.1 s.1 (visit isl c s.2.2) := by
  have hperm : (done ++ [c] ++ s.2.1).Perm (new ++ (done ++ c :: stack)) := by
    have hswap := List.perm_append_comm_assoc (done ++ [c]) new stack
    rwa [hs.stack, List.append_assoc done [c] stack] at *
  have hmem : ∀ p, p ∈ done ++ [c] ++ s.2.1 ↔ p ∈ new ∨ p ∈ done ++ c :: stack := by
    intro p
    rw [hperm.mem_iff, List.mem_append]
  have hpushed : ∀ q ∈ new, q ∈ neighbours c ∧ Opaque img q ∧ label (idx img q) = none := hs.pushed
  have hlabels : ∀ q, InImage img q → s.1 (idx img q) = if q ∈ new then some id else label (idx img q) := hs.label
  have hc : Opaque img c ∧ Connected img seed c ∧ old (idx img c) = none := h.found c (by simp)
  have hfresh : ∀ p ∈ new, p ∉ done ++ c :: stack := by
    intro p hp hin
    obtain ⟨-, hpo, hnone⟩ := hpushed p hp
    rw [h.label p hpo.inImage, if_pos hin] at hnone
    cases hnone
  have hnone : ∀ p ∈ new, old (idx img p) = none := by
    intro p hp
    obtain ⟨-, hpo, hlabel⟩ := hpushed p hp
    rwa [h.label p hpo.inImage, if_neg (hfresh p hp)] at hlabel
  refine ⟨?_, ?_, ?_, ?_, ?_, ?_⟩
  · rw [hperm.nodup_iff, List.nodup_append']
    exact ⟨hs.nodup, h.nodup, fun p hp => hfresh p hp⟩
  · exact (hmem seed).mpr (.inr h.started)
  · intro p hp
    obtain hp | hp := (hmem p).mp hp
    · obtain ⟨hn, hpo, -⟩ := hpushed p hp
      have htouch := (mem_neighbours hc.1.inImage hpo.inImage).mp hn
      exact ⟨hpo, hc.2.1.tail ⟨hc.1, hpo, htouch⟩, hnone p hp⟩
    · exact h.found p hp
  · intro p hp
    rw [hlabels p hp, h.label p hp]
    by_cases hnew : p ∈ new
    · rw [if_pos hnew, if_pos ((hmem p).mpr (.inl hnew))]
    · rw [if_neg hnew, if_congr (hmem p) rfl rfl]
      simp only [hnew, false_or]
  · intro p hp q hq
    obtain hp | hp := List.mem_append.mp hp
    · exact (hmem q).mpr (.inr (h.closed p hp q hq))
    · rw [List.mem_singleton.mp hp] at hq
      have hn := (mem_neighbours hq.1.inImage hq.2.1.inImage).mpr hq.2.2
      have hlabelled := hs.all q hn hq.2.1
      rw [hlabels q hq.2.1.inImage, h.label q hq.2.1.inImage] at hlabelled
      refine (hmem q).mpr ?_
      by_contra hnot
      rw [not_or] at hnot
      rw [if_neg hnot.1, if_neg hnot.2] at hlabelled
      exact hold q c ⟨hq.2.1, hq.1, hq.2.2.symm⟩ hlabelled hc.2.2
  · refine h.measures.visit ?_
    rw [hs.onEdge]
    simp [AtEdge]

/-- What is left when the stack is empty. -/
theorem fill_ends {id : ℕ} {old label : Labels} {seed : Pixel} {done stack : List Pixel} {isl : Island}
    (hold : Whole img old) (h : Filling img id old seed done stack label isl) :
    ∃ px, Filling img id old seed px [] (fill img id label stack isl).1 (fill img id label stack isl).2 := by
  induction label, stack, isl using fill.induct img id generalizing done with
  | case1 label isl =>
    rw [fill]
    exact ⟨done, h⟩
  | case2 label isl c stack s =>
    rename_i ih
    rw [fill]
    obtain ⟨new, hnew⟩ := @spreads_spec img id (neighbours c) (label, stack, false)
    exact ih (h.step hold hnew)

theorem Filling.mem_iff {id : ℕ} {old label : Labels} {seed : Pixel} {px : List Pixel} {isl : Island}
    (h : Filling img id old seed px [] label isl) {p : Pixel} : p ∈ px ↔ Connected img seed p := by
  constructor
  · intro hp
    exact (h.found p (by simpa using hp)).2.1
  · intro hp
    induction hp with
    | refl => simpa using h.started
    | tail _ hadj ih => simpa using h.closed _ ih _ hadj

theorem filling_start {id : ℕ} {old : Labels} {seed : Pixel} (hseed : Opaque img seed) (hnone : old (idx img seed) = none) :
    Filling img id old seed [] [seed] (Function.update old (idx img seed) (some id))
      { x0 := seed.1, y0 := seed.2, x1 := seed.1, y1 := seed.2, area := 0, sumX := 0, sumY := 0, edge := [] } where
  nodup := List.nodup_singleton seed
  started := List.mem_singleton_self seed
  found := by
    intro p hp
    rw [List.nil_append, List.mem_singleton] at hp
    rw [hp]
    exact ⟨hseed, .refl, hnone⟩
  label := by
    intro p hp
    rw [update_idx hseed.inImage hp, List.nil_append]
    simp only [List.mem_singleton]
  closed p hp := absurd hp List.not_mem_nil
  measures := by
    constructor <;> simp [Least, Greatest]

/-! ## The scan -/

/-- Half way through the scan. -/
structure Scanned (img : Sheet) (seen : List Pixel) (s : Labels × List Island) : Prop where
  seen : ∀ p ∈ seen, Opaque img p → s.1 (idx img p) ≠ none
  isOpaque : ∀ p, InImage img p → s.1 (idx img p) ≠ none → Opaque img p
  number : ∀ p i, InImage img p → s.1 (idx img p) = some i → i < s.2.length
  same : ∀ p q i, InImage img p → InImage img q → s.1 (idx img p) = some i →
    (s.1 (idx img q) = some i ↔ Connected img p q)
  island : ∀ i isl, s.2[i]? = some isl → ∃ px, px ≠ [] ∧ px.Nodup ∧
    (∀ p, p ∈ px ↔ InImage img p ∧ s.1 (idx img p) = some i) ∧ Measures img [] px isl

theorem Scanned.whole {seen : List Pixel} {s : Labels × List Island} (h : Scanned img seen s) : Whole img s.1 := by
  intro p q hadj hp
  obtain ⟨i, hi⟩ := Option.ne_none_iff_exists'.mp hp
  rw [(h.same p q i hadj.1.inImage hadj.2.1.inImage hi).mpr (.single hadj)]
  exact Option.some_ne_none i

theorem Measures.own {seed : Pixel} {px : List Pixel} {isl : Island} (h : Measures img [seed] px isl) (hseed : seed ∈ px) :
    Measures img [] px isl := by
  have hmem : ∀ p, p ∈ [seed] ++ px ↔ p ∈ [] ++ px := by
    intro p
    simp only [List.mem_append, List.mem_singleton, List.not_mem_nil, false_or]
    exact ⟨fun hp => hp.elim (fun hp => hp ▸ hseed) id, .inr⟩
  obtain ⟨hx0, hy0, hx1, hy1, harea, hsumX, hsumY, hedge⟩ := h
  simp only [Least, Greatest, hmem] at hx0 hy0 hx1 hy1
  exact ⟨hx0, hy0, hx1, hy1, harea, hsumX, hsumY, hedge⟩

/-- An island is filled, and its label is new. -/
theorem Scanned.add {seen : List Pixel} {s : Labels × List Island} (h : Scanned img seen s) {p : Pixel}
    (hpo : Opaque img p) {px : List Pixel} {filled : Labels × Island}
    (hpx : Filling img s.2.length s.1 p px [] filled.1 filled.2) :
    Scanned img (seen ++ [p]) (filled.1, s.2 ++ [filled.2]) := by
  have hmem : ∀ q, q ∈ px ↔ Connected img p q := fun q => hpx.mem_iff
  have hlabel : ∀ q, InImage img q → filled.1 (idx img q) = if q ∈ px then some s.2.length else s.1 (idx img q) := by
    intro q hq
    have hlabel := hpx.label q hq
    rwa [List.append_nil] at hlabel
  have hpxo : ∀ q ∈ px, Opaque img q := fun q hq => ((hmem q).mp hq).isOpaque hpo
  have hold : ∀ q i, InImage img q → s.1 (idx img q) = some i → q ∉ px ∧ i ≠ s.2.length := by
    intro q i hq hi
    refine ⟨fun hin => ?_, (h.number q i hq hi).ne⟩
    have hnone := (hpx.found q (by simpa using hin)).2.2
    rw [hi] at hnone
    cases hnone
  refine ⟨?_, ?_, ?_, ?_, ?_⟩
  · intro q hq hqo
    dsimp only
    rw [hlabel q hqo.inImage]
    split
    · simp
    · rename_i hnot
      obtain hq | hq := List.mem_append.mp hq
      · exact h.seen q hq hqo
      · rw [List.mem_singleton.mp hq] at hnot
        exact absurd ((hmem p).mpr .refl) hnot
  · intro q hq hsome
    dsimp only at hsome
    rw [hlabel q hq] at hsome
    split at hsome
    · exact hpxo q (by assumption)
    · exact h.isOpaque q hq hsome
  · intro q i hq hi
    dsimp only at hi ⊢
    rw [hlabel q hq] at hi
    rw [List.length_append, List.length_singleton]
    split at hi
    · cases hi
      exact Nat.lt_succ_self _
    · exact (h.number q i hq hi).trans (Nat.lt_succ_self _)
  · intro q r i hq hr hi
    dsimp only at hi ⊢
    rw [hlabel q hq] at hi
    rw [hlabel r hr]
    split at hi
    · rename_i hqin
      cases hi
      have hpq := (hmem q).mp hqin
      have hqr : Connected img q r ↔ r ∈ px := by
        rw [hmem]
        exact ⟨hpq.trans, hpq.symm.trans⟩
      rw [hqr]
      split
      · simpa
      · rename_i hrnot
        simp only [hrnot, iff_false]
        intro hri
        exact (hold r _ hr hri).2 rfl
    · rename_i hqnot
      split
      · rename_i hrin
        have hne := (hold q i hq hi).2
        simp only [Option.some_inj, hne.symm, false_iff]
        intro hqr
        exact hqnot ((hmem q).mpr (((hmem r).mp hrin).trans hqr.symm))
      · exact h.same q r i hq hr hi
  · intro i isl hisl
    dsimp only at hisl ⊢
    obtain hlt | hge := lt_or_ge i s.2.length
    · rw [List.getElem?_append_left hlt] at hisl
      obtain ⟨own, hne, hnodup, hown, hmeasures⟩ := h.island i isl hisl
      refine ⟨own, hne, hnodup, fun q => ?_, hmeasures⟩
      rw [hown]
      refine and_congr_right fun hq => ?_
      rw [hlabel q hq]
      split
      · rename_i hqin
        refine iff_of_false (fun hi => (hold q i hq hi).1 hqin) fun hi => ?_
        rw [Option.some_inj] at hi
        omega
      · rfl
    · have hlen := (List.getElem?_eq_some_iff.mp hisl).1
      rw [List.length_append, List.length_singleton] at hlen
      have hi : i = s.2.length := by omega
      subst hi
      rw [List.getElem?_concat_length, Option.some_inj] at hisl
      subst hisl
      have hpin : p ∈ px := (hmem p).mpr .refl
      refine ⟨px, List.ne_nil_of_mem hpin, by simpa using hpx.nodup, fun q => ?_, hpx.measures.own hpin⟩
      constructor
      · intro hq
        have hin := (hpxo q hq).inImage
        refine ⟨hin, ?_⟩
        rw [hlabel q hin, if_pos hq]
      · rintro ⟨hin, hq⟩
        rw [hlabel q hin] at hq
        split at hq
        · assumption
        · exact absurd rfl (hold q _ hin hq).2

theorem Scanned.step {seen : List Pixel} {s : Labels × List Island} (h : Scanned img seen s) {p : Pixel}
    (hp : InImage img p) : Scanned img (seen ++ [p]) (scanPixel img s p) := by
  unfold scanPixel
  split
  · rename_i hskip
    refine ⟨?_, h.isOpaque, h.number, h.same, h.island⟩
    intro q hq hqo
    obtain hq | hq := List.mem_append.mp hq
    · exact h.seen q hq hqo
    · rw [List.mem_singleton.mp hq] at hqo ⊢
      exact hskip.resolve_left hqo.2
  · rename_i hfill
    rw [not_or, not_not] at hfill
    have hpo : Opaque img p := ⟨hp, hfill.1⟩
    obtain ⟨px, hpx⟩ := fill_ends h.whole (@filling_start img s.2.length s.1 p hpo hfill.2)
    exact h.add hpo hpx

theorem islands_scanned (img : Sheet) : Scanned img (allPixels img) (islands img) := by
  have hrun : ∀ ps : List Pixel, (∀ p ∈ ps, InImage img p) → ∀ seen s, Scanned img seen s →
      Scanned img (seen ++ ps) (ps.foldl (scanPixel img) s) := by
    intro ps
    induction ps with
    | nil =>
      intro _ seen s h
      rwa [List.append_nil]
    | cons p ps ih =>
      intro hin seen s h
      have hnext := ih (fun q hq => hin q (List.mem_cons_of_mem _ hq)) (seen ++ [p]) (scanPixel img s p)
        (h.step (hin p List.mem_cons_self))
      rwa [List.append_assoc, List.singleton_append] at hnext
  have hstart : Scanned img [] (fun _ => none, []) := by
    constructor <;> simp
  exact hrun (allPixels img) (fun p hp => mem_allPixels.mp hp) [] _ hstart

end

end Haruspex.ImageGen
