import Haruspex.ImageGen.Near
import Haruspex.Library.Forest
import Mathlib.Data.List.Forall2
import Mathlib.Data.List.Perm.Basic
import Mathlib.Data.Set.Card

/-! Cutting a sheet into the sprites drawn on it (`image_gen/split.rs`). -/
namespace Haruspex.ImageGen
open Library
set_option autoImplicit false

/-- The arithmetic of `f32`, and the opening that counts the lobes of a piece. -/
structure Floats where
  F : Type
  ofNat : ℕ → F
  sub : F → F → F
  mul : F → F → F
  div : F → F → F
  max : F → F → F
  sqrt : F → F
  /-- `.round() as u32` -/
  round : F → ℕ
  ge : F → F → Bool
  gt : F → F → Bool
  /-- `total_cmp` does not say greater. -/
  totalLe : F → F → Bool
  lobes : RgbaImage → ℕ

structure SplitOptions (F : Type) where
  minPieceFraction : F
  joinFraction : F

structure Piece (F : Type) where
  x : ℕ
  y : ℕ
  width : ℕ
  height : ℕ
  cx : F
  cy : F
  area : ℕ
  lobes : ℕ
  image : RgbaImage

def transparent : Rgba := ⟨0, 0, 0, 0⟩

def RgbaImage.fromPixel (width height : ℕ) (c : Rgba) : RgbaImage := ⟨width, height, fun _ _ => c⟩

def RgbaImage.putPixel (image : RgbaImage) (x y : ℕ) (c : Rgba) : RgbaImage :=
  { image with getPixel := fun a b => if a = x ∧ b = y then c else image.getPixel a b }

section
variable (fl : Floats) (opts : SplitOptions fl.F) (img : Sheet)

/-- An island at or above the area floor. -/
def isBig (area : ℕ) : Bool :=
  let canvas := fl.mul (fl.ofNat img.width) (fl.ofNat img.height)
  let floor := fl.max (fl.mul canvas opts.minPieceFraction) (fl.ofNat 1)
  fl.ge (fl.ofNat area) floor

def bigIslands (isl : List Island) : List ℕ :=
  (List.range isl.length).filter fun i => (isl[i]?).any fun a => isBig fl opts img a.area

/-- The join gap, from the median area of the big islands. -/
def joinGap (isl : List Island) (big : List ℕ) : ℕ :=
  let areas := (big.map fun i => (isl[i]?).elim 0 Island.area).mergeSort
  let medianSide := fl.sqrt (fl.ofNat (areas.getD (areas.length / 2) 0))
  fl.round (fl.mul medianSide opts.joinFraction)

end

def nearAt (isl : List Island) (a j gap : ℕ) : Bool :=
  match isl[a]?, isl[j]? with
  | some ia, some ij => near ia ij gap
  | _, _ => false

/-- Every pair of islands within the gap joined, where one of the two is big. -/
def joinNear (isl : List Island) (big : List ℕ) (gap : ℕ) : Forest ℕ :=
  big.foldl
    (fun parent a => (List.range isl.length).foldl
      (fun parent j => if j ≠ a ∧ nearAt isl a j gap = true then parent.join a j else parent) parent)
    Forest.single

/-- The islands of each root. -/
def groupRoots (parent : Forest ℕ) (n : ℕ) : Forest ℕ × List (ℕ × List ℕ) :=
  (List.range n).foldl (fun s i => ((s.1.find i).1, push s.2 (s.1.find i).2 i)) (parent, [])

/-- The groups with a big island. -/
def groupsOf (isl : List Island) (big : List ℕ) (gap : ℕ) : List (ℕ × List ℕ) :=
  (groupRoots (joinNear isl big gap) isl.length).2.filter fun g => g.2.any fun i => big.contains i

/-- A pixel of one of the islands is copied. -/
def copyPixel (img : Sheet) (label : Labels) (members : List ℕ) (x0 y0 : ℕ) (image : RgbaImage) (p : Pixel) : RgbaImage :=
  match label (idx img p) with
  | some l => if members.contains l then image.putPixel (p.1 - x0) (p.2 - y0) (img.getPixel p.1 p.2) else image
  | none => image

def boxPixels (x0 y0 x1 y1 : ℕ) : List Pixel :=
  (List.range' y0 (y1 + 1 - y0)).flatMap fun y => (List.range' x0 (x1 + 1 - x0)).map fun x => (x, y)

section
variable (fl : Floats)

def cutPiece (img : Sheet) (label : Labels) (isl : List Island) (members : List ℕ) : Piece fl.F :=
  let own := members.filterMap fun i => isl[i]?
  let x0 := ((own.map Island.x0).min?).getD 0
  let y0 := ((own.map Island.y0).min?).getD 0
  let x1 := ((own.map Island.x1).max?).getD 0
  let y1 := ((own.map Island.y1).max?).getD 0
  let area := (own.map Island.area).sum
  let sx := (own.map Island.sumX).sum
  let sy := (own.map Island.sumY).sum
  let image := (boxPixels x0 y0 x1 y1).foldl (copyPixel img label members x0 y0)
    (RgbaImage.fromPixel (x1 - x0 + 1) (y1 - y0 + 1) transparent)
  { x := x0
    y := y0
    width := x1 - x0 + 1
    height := y1 - y0 + 1
    cx := fl.div (fl.ofNat sx) (fl.ofNat (max area 1))
    cy := fl.div (fl.ofNat sy) (fl.ofNat (max area 1))
    area
    lobes := fl.lobes image
    image }

/-- The row of each piece: a new one where a centre is too far below the row's first. -/
def rowsOf (tolerance : fl.F) (row : ℕ) (rowStart : fl.F) (pieces : List (Piece fl.F)) : List ℕ :=
  match pieces with
  | [] => []
  | p :: rest =>
    if fl.gt (fl.sub p.cy rowStart) tolerance then (row + 1) :: rowsOf tolerance (row + 1) p.cy rest
    else row :: rowsOf tolerance row rowStart rest

/-- Rows first, then left to right within a row. -/
def readingOrder (pieces : List (Piece fl.F)) : List (Piece fl.F) :=
  let heights := (pieces.map Piece.height).mergeSort
  let tolerance := fl.div (fl.ofNat (heights.getD (heights.length / 2) 0)) (fl.ofNat 2)
  let pieces := pieces.mergeSort fun a b => fl.totalLe a.cy b.cy
  match pieces with
  | [] => []
  | first :: _ =>
    let rows := rowsOf fl tolerance 0 first.cy pieces
    let keyed := (rows.zip pieces).zipIdx.map fun e => (e.1.1, e.1.2.cx, e.2)
    let keyed := keyed.mergeSort fun a b => a.1 < b.1 || (a.1 == b.1 && fl.totalLe a.2.1 b.2.1)
    keyed.filterMap fun k => pieces[k.2.2]?

/-- A sheet cut into its pieces. -/
def splitSheet (opts : SplitOptions fl.F) (img : Sheet) : List (Piece fl.F) :=
  let (label, isl) := islands img
  if isl.isEmpty then []
  else
    let big := bigIslands fl opts img isl
    if big.isEmpty then []
    else
      let gap := joinGap fl opts isl big
      readingOrder fl ((groupsOf isl big gap).map fun g => cutPiece fl img label isl g.2)

end

/-! ## Order -/

section
variable {fl : Floats}

theorem rowsOf_length (tolerance : fl.F) (row : ℕ) (rowStart : fl.F) (pieces : List (Piece fl.F)) :
    (rowsOf fl tolerance row rowStart pieces).length = pieces.length := by
  induction pieces generalizing row rowStart with
  | nil => rfl
  | cons p rest ih =>
    unfold rowsOf
    split <;> rw [List.length_cons, List.length_cons, ih]

theorem filterMap_range {A : Type} (l : List A) : (List.range l.length).filterMap (fun i => l[i]?) = l := by
  induction l with
  | nil => rfl
  | cons a l ih =>
    rw [List.length_cons, List.range_succ_eq_map, List.filterMap_cons, List.filterMap_map]
    have htail : (List.range l.length).filterMap ((fun i => (a :: l)[i]?) ∘ Nat.succ) = l := by
      simpa [Function.comp_def] using ih
    rw [htail]
    rfl

/-- No piece is lost, and none comes twice. -/
theorem readingOrder_perm (pieces : List (Piece fl.F)) : (readingOrder fl pieces).Perm pieces := by
  unfold readingOrder
  dsimp only
  have hsorted := List.mergeSort_perm pieces fun a b => fl.totalLe a.cy b.cy
  generalize pieces.mergeSort (fun a b => fl.totalLe a.cy b.cy) = sorted at hsorted
  cases sorted with
  | nil => exact hsorted
  | cons first rest =>
    refine List.Perm.trans ?_ hsorted
    refine ((List.mergeSort_perm _ _).filterMap _).trans ?_
    have hlen : ((rowsOf fl (fl.div (fl.ofNat (((pieces.map Piece.height).mergeSort).getD
        (((pieces.map Piece.height).mergeSort).length / 2) 0)) (fl.ofNat 2)) 0 first.cy (first :: rest)).zip
        (first :: rest)).length = (first :: rest).length := by
      rw [List.length_zip, rowsOf_length, min_self]
    have hall := filterMap_range (first :: rest)
    rw [← hlen, List.range_eq_range', ← List.zipIdx_map_snd, List.filterMap_map] at hall
    rw [List.filterMap_map]
    exact List.Perm.of_eq hall

end

/-! ## Sets of pixels -/

/-- The opaque pixels connected with one. -/
def IsIsland (img : Sheet) (S : Set Pixel) : Prop := ∃ p, Opaque img p ∧ S = {q | Connected img p q}

section
variable (img : Sheet) (big : ℕ → Bool) (gap : ℕ)

/-- A big island, and another with a pixel within the gap of one of its own. -/
structure Joins (S T : Set Pixel) : Prop where
  left : IsIsland img S
  right : IsIsland img T
  ne : S ≠ T
  isBig : big S.ncard = true
  within : ∃ p ∈ S, ∃ q ∈ T, Within gap p q

/-- The pixels of the islands joined with a big one. -/
def IsGroup (G : Set Pixel) : Prop :=
  ∃ S, IsIsland img S ∧ big S.ncard = true ∧ G = {p | ∃ T, Relation.EqvGen (Joins img big gap) S T ∧ p ∈ T}

end

/-- The island of one number. -/
def islandSet (img : Sheet) (i : ℕ) : Set Pixel := {p | InImage img p ∧ (islands img).1 (idx img p) = some i}

section
variable {img : Sheet}

theorem islandSet_isOpaque {i : ℕ} {p : Pixel} (h : p ∈ islandSet img i) : Opaque img p :=
  (islands_scanned img).isOpaque p h.1 (by rw [h.2]; exact Option.some_ne_none i)

theorem islandSet_number {i j : ℕ} {p : Pixel} (hi : p ∈ islandSet img i) (hj : p ∈ islandSet img j) : i = j :=
  Option.some_inj.mp (hi.2.symm.trans hj.2)

theorem islandSet_eq {i : ℕ} {p : Pixel} (h : p ∈ islandSet img i) : islandSet img i = {q | Connected img p q} := by
  ext q
  constructor
  · rintro ⟨hq, hlabel⟩
    exact ((islands_scanned img).same p q i h.1 hq h.2).mp hlabel
  · intro hpq
    have hq := (Connected.isOpaque hpq (islandSet_isOpaque h)).inImage
    exact ⟨hq, ((islands_scanned img).same p q i h.1 hq h.2).mpr hpq⟩

/-- The record of an island, and the list of its pixels. -/
theorem island_pixels {i : ℕ} (h : i < (islands img).2.length) : ∃ a px, (islands img).2[i]? = some a ∧ px ≠ [] ∧
    px.Nodup ∧ (∀ p, p ∈ px ↔ p ∈ islandSet img i) ∧ Measures img [] px a := by
  obtain ⟨px, hpx⟩ := (islands_scanned img).island i _ (List.getElem?_eq_getElem h)
  exact ⟨_, px, List.getElem?_eq_getElem h, hpx⟩

theorem islandSet_nonempty {i : ℕ} (h : i < (islands img).2.length) : (islandSet img i).Nonempty := by
  obtain ⟨-, px, -, hne, -, hmem, -⟩ := island_pixels h
  obtain ⟨p, hp⟩ := List.exists_mem_of_ne_nil px hne
  exact ⟨p, (hmem p).mp hp⟩

theorem islandSet_inj {i j : ℕ} (hi : i < (islands img).2.length) (h : islandSet img i = islandSet img j) : i = j := by
  obtain ⟨p, hp⟩ := islandSet_nonempty hi
  exact islandSet_number hp (h ▸ hp)

theorem exists_islandSet {p : Pixel} (h : Opaque img p) : ∃ i < (islands img).2.length, p ∈ islandSet img i := by
  have hseen := (islands_scanned img).seen p (mem_allPixels.mpr h.inImage) h
  obtain ⟨i, hi⟩ := Option.ne_none_iff_exists'.mp hseen
  exact ⟨i, (islands_scanned img).number p i h.inImage hi, h.inImage, hi⟩

theorem isIsland_iff {S : Set Pixel} : IsIsland img S ↔ ∃ i < (islands img).2.length, S = islandSet img i := by
  constructor
  · rintro ⟨p, hp, rfl⟩
    obtain ⟨i, hi, hmem⟩ := exists_islandSet hp
    exact ⟨i, hi, (islandSet_eq hmem).symm⟩
  · rintro ⟨i, hi, rfl⟩
    obtain ⟨p, hp⟩ := islandSet_nonempty hi
    exact ⟨p, islandSet_isOpaque hp, islandSet_eq hp⟩

theorem ncard_pixels {S : Set Pixel} {px : List Pixel} (hnodup : px.Nodup) (hmem : ∀ p, p ∈ px ↔ p ∈ S) :
    S.ncard = px.length := by
  have hS : S = (px.toFinset : Set Pixel) := by
    ext p
    rw [Finset.mem_coe, List.mem_toFinset, hmem]
  rw [hS, Set.ncard_coe_finset, List.toFinset_card_of_nodup hnodup]

theorem islandSet_ncard {i : ℕ} {a : Island} (h : (islands img).2[i]? = some a) : (islandSet img i).ncard = a.area := by
  obtain ⟨a', px, ha, -, hnodup, hmem, hmeasures⟩ := island_pixels (List.getElem?_eq_some_iff.mp h).1
  rw [h, Option.some_inj] at ha
  subst ha
  rw [ncard_pixels hnodup hmem, hmeasures.area]

theorem islandSet_closed {i : ℕ} {px : List Pixel} (h : ∀ p, p ∈ px ↔ p ∈ islandSet img i) : Closed img px where
  isOpaque p hp := islandSet_isOpaque ((h p).mp hp)
  step p hp q hadj := by
    rw [h, islandSet_eq ((h p).mp hp)]
    exact .single hadj

/-- Two islands are near when two pixels of theirs are. -/
theorem nearAt_iff {i j gap : ℕ} (hi : i < (islands img).2.length) (hj : j < (islands img).2.length) (hij : i ≠ j) :
    nearAt (islands img).2 i j gap = true ↔ ∃ p ∈ islandSet img i, ∃ q ∈ islandSet img j, Within gap p q := by
  obtain ⟨a, pa, ha, -, -, hpa, hma⟩ := island_pixels hi
  obtain ⟨b, pb, hb, -, -, hpb, hmb⟩ := island_pixels hj
  have hdisjoint : ∀ p ∈ pa, p ∉ pb := fun p hp hp' => hij (islandSet_number ((hpa p).mp hp) ((hpb p).mp hp'))
  unfold nearAt
  rw [ha, hb]
  dsimp only
  rw [near_iff (islandSet_closed hpa) (islandSet_closed hpb) hdisjoint hma hmb]
  simp only [hpa, hpb]

theorem mem_bigIslands {fl : Floats} {opts : SplitOptions fl.F} {i : ℕ} : i ∈ bigIslands fl opts img (islands img).2 ↔
    i < (islands img).2.length ∧ isBig fl opts img (islandSet img i).ncard = true := by
  rw [bigIslands, List.mem_filter, List.mem_range]
  refine and_congr_right fun hi => ?_
  rw [List.getElem?_eq_getElem hi, Option.any_some, islandSet_ncard (List.getElem?_eq_getElem hi)]

/-! ## Groups -/

/-- The pairs of islands that are joined. -/
def Linked (isl : List Island) (bigs : List ℕ) (gap : ℕ) (a j : ℕ) : Prop :=
  a ∈ bigs ∧ j < isl.length ∧ j ≠ a ∧ nearAt isl a j gap = true

theorem joinNear_same (isl : List Island) (bigs : List ℕ) (gap i j : ℕ) :
    (joinNear isl bigs gap).Same i j ↔ Relation.EqvGen (Linked isl bigs gap) i j := by
  have hpairs : joinNear isl bigs gap = (bigs.flatMap fun a =>
      ((List.range isl.length).filter fun j => j ≠ a ∧ nearAt isl a j gap = true).map fun j => (a, j)).foldl
        (fun f p => f.join p.1 p.2) Forest.single := by
    rw [joinNear, List.foldl_flatMap]
    simp only [List.foldl_map, List.foldl_filter, decide_eq_true_eq]
  rw [hpairs, Forest.same_joins_single]
  have hmem : ∀ i j, (i, j) ∈ (bigs.flatMap fun a =>
      ((List.range isl.length).filter fun j => j ≠ a ∧ nearAt isl a j gap = true).map fun j => (a, j)) ↔
        Linked isl bigs gap i j := by
    intro i j
    simp only [List.mem_flatMap, List.mem_map, List.mem_filter, List.mem_range, decide_eq_true_eq, Prod.mk.injEq, Linked]
    constructor
    · rintro ⟨a, ha, k, ⟨hk, hne, hnear⟩, rfl, rfl⟩
      exact ⟨ha, hk, hne, hnear⟩
    · rintro ⟨ha, hk, hne, hnear⟩
      exact ⟨i, ha, j, ⟨hk, hne, hnear⟩, rfl, rfl⟩
  simp only [hmem]

theorem groupRoots_eq (parent : Forest ℕ) (n : ℕ) : (groupRoots parent n).2 = collect parent.root (List.range n) := by
  have hfold : ∀ (is : List ℕ) (s : Forest ℕ × List (ℕ × List ℕ)), (∀ j, s.1.root j = parent.root j) →
      (is.foldl (fun s i => ((s.1.find i).1, push s.2 (s.1.find i).2 i)) s).2 =
        is.foldl (fun groups i => push groups (parent.root i) i) s.2 := by
    intro is
    induction is with
    | nil =>
      intro s _
      rfl
    | cons i is ih =>
      intro s h
      rw [List.foldl_cons, List.foldl_cons, ih]
      · rw [Forest.find_snd, h]
      · intro j
        rw [Forest.find_root, h]
  exact hfold (List.range n) (parent, []) fun j => rfl

theorem mem_groupsOf {isl : List Island} {bigs : List ℕ} {gap r : ℕ} {members : List ℕ} :
    (r, members) ∈ groupsOf isl bigs gap ↔ (∃ i ∈ members, i ∈ bigs) ∧
      members = (List.range isl.length).filter fun i => (joinNear isl bigs gap).root i = r := by
  rw [groupsOf, List.mem_filter, groupRoots_eq, mem_collect, List.any_eq_true]
  simp only [List.contains_iff_mem]
  constructor
  · rintro ⟨⟨-, hmembers⟩, hbig⟩
    exact ⟨hbig, hmembers⟩
  · rintro ⟨⟨i, hi, hbig⟩, hmembers⟩
    exact ⟨⟨List.ne_nil_of_mem hi, hmembers⟩, i, hi, hbig⟩

/-- The pixels of some islands. -/
def groupSet (img : Sheet) (members : List ℕ) : Set Pixel := {p | ∃ i ∈ members, p ∈ islandSet img i}

section
variable {fl : Floats} {opts : SplitOptions fl.F} {gap : ℕ}

theorem joins_iff {i j : ℕ} (hi : i < (islands img).2.length) (hj : j < (islands img).2.length) :
    Joins img (isBig fl opts img) gap (islandSet img i) (islandSet img j) ↔
      Linked (islands img).2 (bigIslands fl opts img (islands img).2) gap i j := by
  constructor
  · intro h
    have hij : i ≠ j := fun hij => h.ne (by rw [hij])
    exact ⟨mem_bigIslands.mpr ⟨hi, h.isBig⟩, hj, hij.symm, (nearAt_iff hi hj hij).mpr h.within⟩
  · rintro ⟨hbig, -, hne, hnear⟩
    exact ⟨isIsland_iff.mpr ⟨i, hi, rfl⟩, isIsland_iff.mpr ⟨j, hj, rfl⟩, fun h => hne (islandSet_inj hi h).symm,
      (mem_bigIslands.mp hbig).2, (nearAt_iff hi hj hne.symm).mp hnear⟩

/-- Joined islands are the numbers joined. -/
theorem eqvGen_joins {S T : Set Pixel} (h : Relation.EqvGen (Joins img (isBig fl opts img) gap) S T) {i : ℕ}
    (hi : i < (islands img).2.length) (hS : S = islandSet img i) : ∃ j < (islands img).2.length, T = islandSet img j ∧
      Relation.EqvGen (Linked (islands img).2 (bigIslands fl opts img (islands img).2) gap) i j := by
  have hboth : (∀ i < (islands img).2.length, S = islandSet img i → ∃ j < (islands img).2.length, T = islandSet img j ∧
      Relation.EqvGen (Linked (islands img).2 (bigIslands fl opts img (islands img).2) gap) i j) ∧
      (∀ i < (islands img).2.length, T = islandSet img i → ∃ j < (islands img).2.length, S = islandSet img j ∧
      Relation.EqvGen (Linked (islands img).2 (bigIslands fl opts img (islands img).2) gap) i j) := by
    clear hS hi i
    induction h with
    | rel S T h =>
      obtain ⟨k, hk, hkS⟩ := isIsland_iff.mp h.left
      obtain ⟨l, hl, hlT⟩ := isIsland_iff.mp h.right
      have hlink : Linked (islands img).2 (bigIslands fl opts img (islands img).2) gap k l :=
        (joins_iff hk hl).mp (by rw [← hkS, ← hlT]; exact h)
      constructor
      · intro i hi hiS
        have hik := islandSet_inj hi (hiS.symm.trans hkS)
        exact ⟨l, hl, hlT, hik ▸ .rel _ _ hlink⟩
      · intro i hi hiT
        have hil := islandSet_inj hi (hiT.symm.trans hlT)
        exact ⟨k, hk, hkS, hil ▸ (Relation.EqvGen.rel _ _ hlink).symm _ _⟩
    | refl S => exact ⟨fun i hi hiS => ⟨i, hi, hiS, .refl i⟩, fun i hi hiS => ⟨i, hi, hiS, .refl i⟩⟩
    | symm S T _ ih => exact ⟨ih.2, ih.1⟩
    | trans S T U _ _ ih ih' =>
      constructor
      · intro i hi hiS
        obtain ⟨j, hj, hjT, hij⟩ := ih.1 i hi hiS
        obtain ⟨k, hk, hkU, hjk⟩ := ih'.1 j hj hjT
        exact ⟨k, hk, hkU, hij.trans _ _ _ hjk⟩
      · intro i hi hiU
        obtain ⟨j, hj, hjT, hij⟩ := ih'.2 i hi hiU
        obtain ⟨k, hk, hkS, hjk⟩ := ih.2 j hj hjT
        exact ⟨k, hk, hkS, hij.trans _ _ _ hjk⟩
  exact hboth.1 i hi hS

theorem eqvGen_linked {i j : ℕ}
    (h : Relation.EqvGen (Linked (islands img).2 (bigIslands fl opts img (islands img).2) gap) i j) :
    Relation.EqvGen (Joins img (isBig fl opts img) gap) (islandSet img i) (islandSet img j) := by
  induction h with
  | rel i j h => exact .rel _ _ ((joins_iff (mem_bigIslands.mp h.1).1 h.2.1).mpr h)
  | refl i => exact .refl _
  | symm i j _ ih => exact ih.symm _ _
  | trans i j k _ _ ih ih' => exact ih.trans _ _ _ ih'

/-- The islands of one root are those joined with one of them. -/
theorem groupSet_root {i : ℕ} (hi : i < (islands img).2.length) :
    groupSet img ((List.range (islands img).2.length).filter fun j =>
      (joinNear (islands img).2 (bigIslands fl opts img (islands img).2) gap).root j =
        (joinNear (islands img).2 (bigIslands fl opts img (islands img).2) gap).root i) =
      {p | ∃ T, Relation.EqvGen (Joins img (isBig fl opts img) gap) (islandSet img i) T ∧ p ∈ T} := by
  ext p
  simp only [groupSet, Set.mem_ofPred_eq, List.mem_filter, List.mem_range, decide_eq_true_eq]
  constructor
  · rintro ⟨j, ⟨-, hroot⟩, hp⟩
    exact ⟨islandSet img j, eqvGen_linked ((joinNear_same _ _ _ i j).mp hroot.symm), hp⟩
  · rintro ⟨T, hT, hp⟩
    obtain ⟨j, hj, rfl, hij⟩ := eqvGen_joins hT hi rfl
    exact ⟨j, ⟨hj, ((joinNear_same _ _ _ i j).mpr hij).symm⟩, hp⟩

/-- The groups are the components with a big island. -/
theorem isGroup_iff {G : Set Pixel} : IsGroup img (isBig fl opts img) gap G ↔
    ∃ g ∈ groupsOf (islands img).2 (bigIslands fl opts img (islands img).2) gap, groupSet img g.2 = G := by
  constructor
  · rintro ⟨S, hS, hbig, rfl⟩
    obtain ⟨i, hi, rfl⟩ := isIsland_iff.mp hS
    refine ⟨(_, _), mem_groupsOf.mpr ⟨⟨i, ?_, mem_bigIslands.mpr ⟨hi, hbig⟩⟩, rfl⟩, groupSet_root hi⟩
    rw [List.mem_filter, List.mem_range]
    exact ⟨hi, decide_eq_true rfl⟩
  · rintro ⟨⟨r, members⟩, hg, rfl⟩
    obtain ⟨⟨i, hi, hbig⟩, hmembers⟩ := mem_groupsOf.mp hg
    subst hmembers
    rw [List.mem_filter, List.mem_range, decide_eq_true_eq] at hi
    obtain ⟨hi, rfl⟩ := hi
    exact ⟨islandSet img i, isIsland_iff.mpr ⟨i, hi, rfl⟩, (mem_bigIslands.mp hbig).2, groupSet_root hi⟩

theorem groupsOf_nodup (isl : List Island) (bigs : List ℕ) : ((groupsOf isl bigs gap).map Prod.fst).Nodup := by
  rw [groupsOf, groupRoots_eq]
  exact (collect_nodup _ _).sublist (List.filter_sublist.map _)

/-- Two groups with a pixel in common are one. -/
theorem groups_disjoint {isl : List Island} {bigs : List ℕ} {g g' : ℕ × List ℕ} (hg : g ∈ groupsOf isl bigs gap)
    (hg' : g' ∈ groupsOf isl bigs gap) {p : Pixel} (hp : p ∈ groupSet img g.2) (hp' : p ∈ groupSet img g'.2) : g = g' := by
  obtain ⟨r, members⟩ := g
  obtain ⟨r', members'⟩ := g'
  obtain ⟨-, rfl⟩ := mem_groupsOf.mp hg
  obtain ⟨-, rfl⟩ := mem_groupsOf.mp hg'
  obtain ⟨i, hi, hpi⟩ := hp
  obtain ⟨j, hj, hpj⟩ := hp'
  obtain rfl := islandSet_number hpi hpj
  rw [List.mem_filter, decide_eq_true_eq] at hi hj
  obtain rfl : r = r' := hi.2.symm.trans hj.2
  rfl

end

/-! ## Pieces -/

/-- A piece shows some pixels: their box, themselves in it and nothing else, and their number. -/
structure Shows {F : Type} (img : Sheet) (piece : Piece F) (G : Set Pixel) : Prop where
  left : (∃ p ∈ G, p.1 = piece.x) ∧ ∀ p ∈ G, piece.x ≤ p.1
  top : (∃ p ∈ G, p.2 = piece.y) ∧ ∀ p ∈ G, piece.y ≤ p.2
  right : (∃ p ∈ G, p.1 + 1 = piece.x + piece.width) ∧ ∀ p ∈ G, p.1 < piece.x + piece.width
  bottom : (∃ p ∈ G, p.2 + 1 = piece.y + piece.height) ∧ ∀ p ∈ G, p.2 < piece.y + piece.height
  width : piece.image.width = piece.width
  height : piece.image.height = piece.height
  inside : ∀ p ∈ G, piece.image.getPixel (p.1 - piece.x) (p.2 - piece.y) = img.getPixel p.1 p.2
  outside : ∀ x < piece.width, ∀ y < piece.height, (piece.x + x, piece.y + y) ∉ G →
    piece.image.getPixel x y = transparent
  area : piece.area = G.ncard

theorem mem_boxPixels {x0 y0 x1 y1 : ℕ} {p : Pixel} :
    p ∈ boxPixels x0 y0 x1 y1 ↔ (x0 ≤ p.1 ∧ p.1 ≤ x1) ∧ y0 ≤ p.2 ∧ p.2 ≤ y1 := by
  obtain ⟨x, y⟩ := p
  simp only [boxPixels, List.mem_flatMap, List.mem_map, List.mem_range'_1, Prod.mk.injEq]
  constructor
  · rintro ⟨y', hy, x', hx, rfl, rfl⟩
    omega
  · rintro ⟨hx, hy⟩
    exact ⟨y, by omega, x, by omega, rfl, rfl⟩

/-- A pixel's label is one of the islands'. -/
def labelled (label : Labels) (img : Sheet) (members : List ℕ) (p : Pixel) : Prop :=
  ∃ i ∈ members, label (idx img p) = some i

theorem copyPixel_of {label : Labels} {members : List ℕ} {x0 y0 : ℕ} {image : RgbaImage} {p : Pixel}
    (h : labelled label img members p) :
    copyPixel img label members x0 y0 image p = image.putPixel (p.1 - x0) (p.2 - y0) (img.getPixel p.1 p.2) := by
  obtain ⟨i, hi, hlabel⟩ := h
  unfold copyPixel
  rw [hlabel]
  dsimp only
  rw [if_pos (List.contains_iff_mem.mpr hi)]

theorem copyPixel_of_not {label : Labels} {members : List ℕ} {x0 y0 : ℕ} {image : RgbaImage} {p : Pixel}
    (h : ¬ labelled label img members p) : copyPixel img label members x0 y0 image p = image := by
  unfold copyPixel
  split
  · rename_i i hlabel
    rw [if_neg]
    intro hi
    exact h ⟨i, List.contains_iff_mem.mp hi, hlabel⟩
  · rfl

/-- What a copied box shows. -/
structure Copied (img : Sheet) (label : Labels) (members : List ℕ) (x0 y0 : ℕ) (ps : List Pixel) (old new : RgbaImage) :
    Prop where
  width : new.width = old.width
  height : new.height = old.height
  inside : ∀ p ∈ ps, labelled label img members p → new.getPixel (p.1 - x0) (p.2 - y0) = img.getPixel p.1 p.2
  outside : ∀ x y, ((x0 + x, y0 + y) ∉ ps ∨ ¬ labelled label img members (x0 + x, y0 + y)) →
    new.getPixel x y = old.getPixel x y

theorem copied (label : Labels) (members : List ℕ) {x0 y0 : ℕ} (ps : List Pixel) (h : ∀ p ∈ ps, x0 ≤ p.1 ∧ y0 ≤ p.2)
    (old : RgbaImage) : Copied img label members x0 y0 ps old (ps.foldl (copyPixel img label members x0 y0) old) := by
  induction ps using List.reverseRecOn with
  | nil => exact ⟨rfl, rfl, fun p hp => absurd hp List.not_mem_nil, fun x y _ => rfl⟩
  | append_singleton ps c ih =>
    have hps := ih fun p hp => h p (by simp [hp])
    obtain ⟨hcx, hcy⟩ := h c (by simp)
    rw [List.foldl_concat]
    by_cases hc : labelled label img members c
    · rw [copyPixel_of hc]
      refine ⟨hps.width, hps.height, ?_, ?_⟩
      · intro p hp hl
        obtain ⟨hx, hy⟩ := h p hp
        simp only [RgbaImage.putPixel]
        by_cases hpc : p = c
        · rw [hpc, if_pos ⟨rfl, rfl⟩]
        · have hin : p ∈ ps := by
            obtain hp | hp := List.mem_append.mp hp
            · exact hp
            · exact absurd (List.mem_singleton.mp hp) hpc
          rw [if_neg, hps.inside p hin hl]
          rintro ⟨h1, h2⟩
          exact hpc (Prod.ext (by omega) (by omega))
      · intro x y hxy
        simp only [RgbaImage.putPixel]
        rw [if_neg, hps.outside x y]
        · exact hxy.imp_left fun hnot hin => hnot (List.mem_append_left _ hin)
        · rintro ⟨rfl, rfl⟩
          have hown : (x0 + (c.1 - x0), y0 + (c.2 - y0)) = c :=
            Prod.ext (by dsimp only; omega) (by dsimp only; omega)
          rw [hown] at hxy
          obtain hnot | hnot := hxy
          · exact hnot (by simp)
          · exact hnot hc
    · rw [copyPixel_of_not hc]
      refine ⟨hps.width, hps.height, ?_, ?_⟩
      · intro p hp hl
        obtain hp | hp := List.mem_append.mp hp
        · exact hps.inside p hp hl
        · rw [List.mem_singleton.mp hp] at hl
          exact absurd hl hc
      · intro x y hxy
        exact hps.outside x y (hxy.imp_left fun hnot hin => hnot (List.mem_append_left _ hin))

/-- The pixels of some islands, listed once each. -/
theorem group_pixels {members : List ℕ} (hnodup : members.Nodup) (h : ∀ i ∈ members, i < (islands img).2.length) :
    ∃ px : List Pixel, px.Nodup ∧ (∀ p, p ∈ px ↔ p ∈ groupSet img members) ∧
      px.length = ((members.filterMap fun i => (islands img).2[i]?).map Island.area).sum := by
  induction members with
  | nil => exact ⟨[], List.nodup_nil, fun p => by simp [groupSet], rfl⟩
  | cons i members ih =>
    rw [List.nodup_cons] at hnodup
    obtain ⟨px, hpx, hmem, hlen⟩ := ih hnodup.2 fun j hj => h j (List.mem_cons_of_mem _ hj)
    obtain ⟨a, own, ha, -, hown, hownmem, hmeasures⟩ := island_pixels (h i List.mem_cons_self)
    refine ⟨own ++ px, ?_, ?_, ?_⟩
    · rw [List.nodup_append']
      refine ⟨hown, hpx, fun p hp hp' => ?_⟩
      obtain ⟨j, hj, hpj⟩ := (hmem p).mp hp'
      have hij := islandSet_number ((hownmem p).mp hp) hpj
      exact hnodup.1 (hij ▸ hj)
    · intro p
      simp only [List.mem_append, hownmem, hmem, groupSet, Set.mem_ofPred_eq, List.mem_cons, exists_eq_or_imp]
    · rw [List.length_append, List.filterMap_cons, ha, hlen, ← hmeasures.area]
      rfl

section
variable {members : List ℕ} {f : Pixel → ℕ} {field : Island → ℕ}

/-- The records of some islands. -/
def recordsOf (img : Sheet) (members : List ℕ) : List Island := members.filterMap fun i => (islands img).2[i]?

theorem exists_record (h : ∀ i ∈ members, i < (islands img).2.length) {p : Pixel} (hp : p ∈ groupSet img members) :
    ∃ a ∈ recordsOf img members, ∃ px, p ∈ px ∧ Measures img [] px a := by
  obtain ⟨i, hi, hpi⟩ := hp
  obtain ⟨a, px, ha, -, -, hmem, hmeasures⟩ := island_pixels (h i hi)
  exact ⟨a, List.mem_filterMap.mpr ⟨i, hi, ha⟩, px, (hmem p).mpr hpi, hmeasures⟩

theorem record_pixels {a : Island} (ha : a ∈ recordsOf img members) :
    ∃ px, (∀ p ∈ px, p ∈ groupSet img members) ∧ Measures img [] px a := by
  obtain ⟨i, hi, ha⟩ := List.mem_filterMap.mp ha
  obtain ⟨a', px, ha', -, -, hmem, hmeasures⟩ := island_pixels (List.getElem?_eq_some_iff.mp ha).1
  rw [ha, Option.some_inj] at ha'
  subst ha'
  exact ⟨px, fun p hp => ⟨i, hi, (hmem p).mp hp⟩, hmeasures⟩

theorem records_ne_nil (hne : members ≠ []) (h : ∀ i ∈ members, i < (islands img).2.length) :
    (recordsOf img members).map field ≠ [] := by
  obtain ⟨i, hi⟩ := List.exists_mem_of_ne_nil members hne
  have ha : (islands img).2.get ⟨i, h i hi⟩ ∈ recordsOf img members :=
    List.mem_filterMap.mpr ⟨i, hi, List.getElem?_eq_getElem (h i hi)⟩
  exact List.ne_nil_of_mem (List.mem_map_of_mem ha)

/-- The least of some islands' leasts is the least over their pixels. -/
theorem least_group (hne : members ≠ []) (h : ∀ i ∈ members, i < (islands img).2.length)
    (hfield : ∀ a px, Measures img [] px a → Least f px (field a)) :
    (∃ p ∈ groupSet img members, f p = (((recordsOf img members).map field).min?).getD 0) ∧
      ∀ p ∈ groupSet img members, (((recordsOf img members).map field).min?).getD 0 ≤ f p := by
  cases hmin : ((recordsOf img members).map field).min? with
  | none => exact absurd (List.min?_eq_none_iff.mp hmin) (records_ne_nil hne h)
  | some m =>
    obtain ⟨hm, hle⟩ := List.min?_eq_some_iff.mp hmin
    rw [Option.getD_some]
    constructor
    · obtain ⟨a, ha, rfl⟩ := List.mem_map.mp hm
      obtain ⟨px, hpx, hmeasures⟩ := record_pixels ha
      obtain ⟨⟨p, hp, hfp⟩, -⟩ := hfield a px hmeasures
      exact ⟨p, hpx p hp, hfp⟩
    · intro p hp
      obtain ⟨a, ha, px, hpx, hmeasures⟩ := exists_record h hp
      exact (hle _ (List.mem_map_of_mem ha)).trans ((hfield a px hmeasures).2 p hpx)

theorem greatest_group (hne : members ≠ []) (h : ∀ i ∈ members, i < (islands img).2.length)
    (hfield : ∀ a px, Measures img [] px a → Greatest f px (field a)) :
    (∃ p ∈ groupSet img members, f p = (((recordsOf img members).map field).max?).getD 0) ∧
      ∀ p ∈ groupSet img members, f p ≤ (((recordsOf img members).map field).max?).getD 0 := by
  cases hmax : ((recordsOf img members).map field).max? with
  | none => exact absurd (List.max?_eq_none_iff.mp hmax) (records_ne_nil hne h)
  | some m =>
    obtain ⟨hm, hle⟩ := List.max?_eq_some_iff.mp hmax
    rw [Option.getD_some]
    constructor
    · obtain ⟨a, ha, rfl⟩ := List.mem_map.mp hm
      obtain ⟨px, hpx, hmeasures⟩ := record_pixels ha
      obtain ⟨⟨p, hp, hfp⟩, -⟩ := hfield a px hmeasures
      exact ⟨p, hpx p hp, hfp⟩
    · intro p hp
      obtain ⟨a, ha, px, hpx, hmeasures⟩ := exists_record h hp
      exact ((hfield a px hmeasures).2 p hpx).trans (hle _ (List.mem_map_of_mem ha))

end

theorem labelled_iff {members : List ℕ} {p : Pixel} (h : InImage img p) :
    labelled (islands img).1 img members p ↔ p ∈ groupSet img members := by
  simp only [labelled, groupSet, islandSet, Set.mem_ofPred_eq, h, true_and]

/-- A box that fits some islands, with their pixels copied into it, shows them. -/
theorem shows_of_box {F : Type} {members : List ℕ} {x0 y0 x1 y1 : ℕ} {piece : Piece F}
    (hx0 : (∃ p ∈ groupSet img members, p.1 = x0) ∧ ∀ p ∈ groupSet img members, x0 ≤ p.1)
    (hy0 : (∃ p ∈ groupSet img members, p.2 = y0) ∧ ∀ p ∈ groupSet img members, y0 ≤ p.2)
    (hx1 : (∃ p ∈ groupSet img members, p.1 = x1) ∧ ∀ p ∈ groupSet img members, p.1 ≤ x1)
    (hy1 : (∃ p ∈ groupSet img members, p.2 = y1) ∧ ∀ p ∈ groupSet img members, p.2 ≤ y1)
    (hx : piece.x = x0) (hy : piece.y = y0) (hwidth : piece.width = x1 - x0 + 1) (hheight : piece.height = y1 - y0 + 1)
    (himage : piece.image = (boxPixels x0 y0 x1 y1).foldl (copyPixel img (islands img).1 members x0 y0)
      (RgbaImage.fromPixel (x1 - x0 + 1) (y1 - y0 + 1) transparent))
    (harea : piece.area = (groupSet img members).ncard) : Shows img piece (groupSet img members) := by
  have hin : ∀ p ∈ groupSet img members, InImage img p := by
    rintro p ⟨i, -, hp⟩
    exact hp.1
  obtain ⟨pr, hpr, hright⟩ := hx1.1
  obtain ⟨pb, hpb, hbottom⟩ := hy1.1
  have hx01 : x0 ≤ x1 := hright ▸ hx0.2 pr hpr
  have hy01 : y0 ≤ y1 := hbottom ▸ hy0.2 pb hpb
  have hcopied := @copied img (islands img).1 members x0 y0 (boxPixels x0 y0 x1 y1)
    (fun p hp => ⟨(mem_boxPixels.mp hp).1.1, (mem_boxPixels.mp hp).2.1⟩)
    (RgbaImage.fromPixel (x1 - x0 + 1) (y1 - y0 + 1) transparent)
  rw [← himage] at hcopied
  subst hx hy
  refine ⟨hx0, hy0, ⟨⟨pr, hpr, by omega⟩, ?_⟩, ⟨⟨pb, hpb, by omega⟩, ?_⟩, hcopied.width.trans hwidth.symm,
    hcopied.height.trans hheight.symm, ?_, ?_, harea⟩
  · intro p hp
    have hle := hx1.2 p hp
    omega
  · intro p hp
    have hle := hy1.2 p hp
    omega
  · intro p hp
    exact hcopied.inside p (mem_boxPixels.mpr ⟨⟨hx0.2 p hp, hx1.2 p hp⟩, hy0.2 p hp, hy1.2 p hp⟩)
      ((labelled_iff (hin p hp)).mpr hp)
  · intro x hx y hy hnot
    refine hcopied.outside x y (.inr fun hlabel => hnot ((labelled_iff ?_).mp hlabel))
    have hw := (hin pr hpr).1
    have hh := (hin pb hpb).2
    exact ⟨by dsimp only; omega, by dsimp only; omega⟩

/-- A piece shows the islands it is cut from. -/
theorem cutPiece_shows (fl : Floats) {members : List ℕ} (hnodup : members.Nodup) (hne : members ≠ [])
    (h : ∀ i ∈ members, i < (islands img).2.length) :
    Shows img (cutPiece fl img (islands img).1 (islands img).2 members) (groupSet img members) := by
  obtain ⟨px, hpx, hmem, harea⟩ := group_pixels hnodup h
  exact shows_of_box (least_group hne h fun a px hm => hm.x0) (least_group hne h fun a px hm => hm.y0)
    (greatest_group hne h fun a px hm => hm.x1) (greatest_group hne h fun a px hm => hm.y1) rfl rfl rfl rfl rfl
    (by rw [ncard_pixels hpx hmem, harea]; rfl)

/-- The pixels a piece shows, at their places on the sheet. -/
def pixelsOf {F : Type} (piece : Piece F) : Set Pixel :=
  {p | (piece.x ≤ p.1 ∧ p.1 < piece.x + piece.width) ∧ (piece.y ≤ p.2 ∧ p.2 < piece.y + piece.height) ∧
    (piece.image.getPixel (p.1 - piece.x) (p.2 - piece.y)).alpha ≠ 0}

theorem Shows.pixelsOf_eq {F : Type} {piece : Piece F} {G : Set Pixel} (h : Shows img piece G)
    (hG : ∀ p ∈ G, Opaque img p) : pixelsOf piece = G := by
  ext p
  constructor
  · rintro ⟨hx, hy, halpha⟩
    by_contra hp
    have hown : (piece.x + (p.1 - piece.x), piece.y + (p.2 - piece.y)) = p :=
      Prod.ext (by dsimp only; omega) (by dsimp only; omega)
    rw [h.outside (p.1 - piece.x) (by omega) (p.2 - piece.y) (by omega) (by rwa [hown])] at halpha
    exact halpha rfl
  · intro hp
    refine ⟨⟨h.left.2 p hp, h.right.2 p hp⟩, ⟨h.top.2 p hp, h.bottom.2 p hp⟩, ?_⟩
    rw [h.inside p hp]
    exact (hG p hp).2

end

/-! ## The sheet -/

section
variable (fl : Floats) (opts : SplitOptions fl.F) (img : Sheet)

/-- The gap islands are joined across on a sheet. -/
def sheetGap : ℕ := joinGap fl opts (islands img).2 (bigIslands fl opts img (islands img).2)

/-- The pieces are the groups, each cut once, in some order. -/
theorem splitSheet_perm : (splitSheet fl opts img).Perm
    ((groupsOf (islands img).2 (bigIslands fl opts img (islands img).2) (sheetGap fl opts img)).map fun g =>
      cutPiece fl img (islands img).1 (islands img).2 g.2) := by
  unfold splitSheet sheetGap
  dsimp only
  split
  · rename_i hnone
    rw [List.isEmpty_iff.mp hnone]
    exact .refl _
  · split
    · rename_i hbig
      rw [List.isEmpty_iff.mp hbig]
      have hnone : groupsOf (islands img).2 [] (joinGap fl opts (islands img).2 []) = [] := by
        rw [groupsOf, List.filter_eq_nil_iff]
        simp
      rw [hnone]
      exact .refl _
    · exact readingOrder_perm _

theorem splitSheet_shows : ∃ gs : List (Set Pixel), gs.Nodup ∧
    (∀ G, G ∈ gs ↔ IsGroup img (isBig fl opts img) (sheetGap fl opts img) G) ∧
      List.Forall₂ (Shows img) (splitSheet fl opts img) gs := by
  have hmembers : ∀ g ∈ groupsOf (islands img).2 (bigIslands fl opts img (islands img).2) (sheetGap fl opts img),
      g.2.Nodup ∧ g.2 ≠ [] ∧ ∀ i ∈ g.2, i < (islands img).2.length := by
    rintro ⟨r, members⟩ hg
    obtain ⟨⟨i, hi, -⟩, hmembers⟩ := mem_groupsOf.mp hg
    refine ⟨?_, List.ne_nil_of_mem hi, ?_⟩
    · rw [hmembers]
      exact List.nodup_range.filter _
    · intro j hj
      rw [hmembers, List.mem_filter, List.mem_range] at hj
      exact hj.1
  have hshows : List.Forall₂ (Shows img)
      ((groupsOf (islands img).2 (bigIslands fl opts img (islands img).2) (sheetGap fl opts img)).map fun g =>
        cutPiece fl img (islands img).1 (islands img).2 g.2)
      ((groupsOf (islands img).2 (bigIslands fl opts img (islands img).2) (sheetGap fl opts img)).map fun g =>
        groupSet img g.2) := by
    rw [List.forall₂_map_left_iff, List.forall₂_map_right_iff, List.forall₂_same]
    intro g hg
    obtain ⟨hnodup, hne, hlt⟩ := hmembers g hg
    exact cutPiece_shows fl hnodup hne hlt
  obtain ⟨gs, hgs, hperm⟩ := List.perm_comp_forall₂ (splitSheet_perm fl opts img) hshows
  refine ⟨gs, ?_, fun G => ?_, hgs⟩
  · rw [hperm.nodup_iff]
    refine List.Nodup.map_on ?_ (List.Nodup.of_map _ (groupsOf_nodup _ _))
    intro g hg g' hg' hsame
    obtain ⟨-, hne, hlt⟩ := hmembers g hg
    obtain ⟨i, hi⟩ := List.exists_mem_of_ne_nil g.2 hne
    obtain ⟨p, hp⟩ := islandSet_nonempty (hlt i hi)
    have hp : p ∈ groupSet img g.2 := ⟨i, hi, hp⟩
    exact groups_disjoint hg hg' hp (hsame ▸ hp)
  · rw [hperm.mem_iff, List.mem_map, isGroup_iff]

/-- A sheet's pieces, and what is in none of them. -/
structure Split : Prop where
  /-- One piece for each group. -/
  groups : ∃ gs : List (Set Pixel), gs.Nodup ∧
    (∀ G, G ∈ gs ↔ IsGroup img (isBig fl opts img) (sheetGap fl opts img) G) ∧
      List.Forall₂ (Shows img) (splitSheet fl opts img) gs
  once : ∀ (i j : ℕ) (a b : Piece fl.F), (splitSheet fl opts img)[i]? = some a → (splitSheet fl opts img)[j]? = some b →
    ∀ p, p ∈ pixelsOf a → p ∈ pixelsOf b → i = j
  lost : ∀ p, Opaque img p → (∀ piece ∈ splitSheet fl opts img, p ∉ pixelsOf piece) →
    isBig fl opts img {q | Connected img p q}.ncard = false ∧
      ∀ S, IsIsland img S → isBig fl opts img S.ncard = true →
        ∀ q, Connected img p q → ∀ r ∈ S, ¬ Within (sheetGap fl opts img) q r
  near : ∀ (i j : ℕ) (a b : Island) (gap : ℕ), (islands img).2[i]? = some a → (islands img).2[j]? = some b → i ≠ j →
    (near a b gap = true ↔ ∃ p ∈ islandSet img i, ∃ q ∈ islandSet img j, Within gap p q)
  numbers : ∀ S, IsIsland img S ↔ ∃ i < (islands img).2.length, S = islandSet img i

theorem IsGroup.isOpaque {img : Sheet} {big : ℕ → Bool} {gap : ℕ} {G : Set Pixel} (h : IsGroup img big gap G) {p : Pixel}
    (hp : p ∈ G) : Opaque img p := by
  obtain ⟨S, ⟨q, hq, rfl⟩, -, rfl⟩ := h
  obtain ⟨T, hT, hp⟩ := hp
  have hisland : IsIsland img T := by
    have hboth : ∀ S T, Relation.EqvGen (Joins img big gap) S T → (IsIsland img S ↔ IsIsland img T) := by
      intro S T h
      induction h with
      | rel S T h => exact iff_of_true h.left h.right
      | refl S => exact Iff.rfl
      | symm S T _ ih => exact ih.symm
      | trans S T U _ _ ih ih' => exact ih.trans ih'
    exact (hboth _ _ hT).mp ⟨q, hq, rfl⟩
  obtain ⟨r, hr, rfl⟩ := hisland
  exact Connected.isOpaque hp hr

variable {fl opts img} in
/-- Groups with a pixel in common are one. -/
theorem IsGroup.eq_of_mem {gap : ℕ} {G G' : Set Pixel} (h : IsGroup img (isBig fl opts img) gap G)
    (h' : IsGroup img (isBig fl opts img) gap G') {p : Pixel} (hp : p ∈ G) (hp' : p ∈ G') : G = G' := by
  obtain ⟨g, hg, rfl⟩ := isGroup_iff.mp h
  obtain ⟨g', hg', rfl⟩ := isGroup_iff.mp h'
  rw [groups_disjoint hg hg' hp hp']

/-- Each piece has the pixels of the group at its place. -/
theorem piece_group {F : Type} {img : Sheet} {big : ℕ → Bool} {gap : ℕ} {pieces : List (Piece F)} {gs : List (Set Pixel)}
    (hshows : List.Forall₂ (Shows img) pieces gs) (hgroups : ∀ G ∈ gs, IsGroup img big gap G) (i : ℕ) :
    (pieces[i]?).map pixelsOf = gs[i]? := by
  induction hshows generalizing i with
  | nil => rfl
  | cons hshow _ ih =>
    cases i with
    | zero => exact congrArg some (hshow.pixelsOf_eq fun p hp => (hgroups _ List.mem_cons_self).isOpaque hp)
    | succ i => exact ih (fun G hG => hgroups G (List.mem_cons_of_mem _ hG)) i

/-- Splitting a sheet mixes nothing and loses nothing but specks far from every sprite. -/
theorem splitSheet_splits : Split fl opts img := by
  obtain ⟨gs, hnodup, hmem, hshows⟩ := splitSheet_shows fl opts img
  have hplace := piece_group hshows fun G hG => (hmem G).mp hG
  have hgone : ∀ p, (∀ piece ∈ splitSheet fl opts img, p ∉ pixelsOf piece) →
      ∀ G, IsGroup img (isBig fl opts img) (sheetGap fl opts img) G → p ∉ G := by
    intro p hnone G hG hp
    obtain ⟨n, hn⟩ := List.mem_iff_getElem?.mp ((hmem G).mpr hG)
    rw [← hplace, Option.map_eq_some_iff] at hn
    obtain ⟨piece, hpiece, rfl⟩ := hn
    exact hnone piece (List.mem_of_getElem? hpiece) hp
  refine ⟨⟨gs, hnodup, hmem, hshows⟩, ?_, ?_, ?_, fun S => isIsland_iff⟩
  · intro i j a b ha hb p hpa hpb
    have hi := hplace i
    have hj := hplace j
    rw [ha, Option.map_some] at hi
    rw [hb, Option.map_some] at hj
    have hsame : pixelsOf a = pixelsOf b := ((hmem _).mp (List.mem_of_getElem? hi.symm)).eq_of_mem
      ((hmem _).mp (List.mem_of_getElem? hj.symm)) hpa hpb
    rw [hsame] at hi
    exact (List.getElem?_inj (List.getElem?_eq_some_iff.mp hi.symm).1 hnodup).mp (hi.symm.trans hj)
  · intro p hp hnone
    have hown : IsIsland img {q | Connected img p q} := ⟨p, hp, rfl⟩
    have hsmall : isBig fl opts img {q | Connected img p q}.ncard = false := by
      by_contra hbig
      rw [Bool.not_eq_false] at hbig
      exact hgone p hnone _ ⟨_, hown, hbig, rfl⟩ ⟨_, .refl _, .refl⟩
    refine ⟨hsmall, ?_⟩
    intro S hS hbig q hq r hr hwithin
    have hne : S ≠ {q | Connected img p q} := by
      rintro rfl
      rw [hsmall] at hbig
      cases hbig
    have hjoins : Joins img (isBig fl opts img) (sheetGap fl opts img) S {q | Connected img p q} :=
      ⟨hS, hown, hne, hbig, r, hr, q, hq, hwithin.symm⟩
    exact hgone p hnone _ ⟨S, hS, hbig, rfl⟩ ⟨_, .rel _ _ hjoins, .refl⟩
  · intro i j a b gap ha hb hij
    have hnear := @nearAt_iff img i j gap (List.getElem?_eq_some_iff.mp ha).1 (List.getElem?_eq_some_iff.mp hb).1 hij
    rw [nearAt, ha, hb] at hnear
    exact hnear

end

end Haruspex.ImageGen
