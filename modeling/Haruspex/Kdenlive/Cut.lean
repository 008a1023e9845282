import Haruspex.Kdenlive.Layout
import Haruspex.Library.Gaps
import Mathlib.Data.List.Sort
import Mathlib.Data.Set.Card

/-! Cutting stretches out of a clip (`cut_ranges` in `video/project.rs`). -/
namespace Haruspex.Kdenlive
open Gaps
set_option autoImplicit false

/-! ## The sweep -/

/-- The ranges that touch the clip, as far as they do. -/
def clipped (inF outF : ℤ) (ranges : List (ℤ × ℤ)) : List (ℤ × ℤ) :=
  (ranges.map (fun r => (max r.1 inF, min r.2 (outF + 1)))).filter (fun c => c.1 < c.2)

/-- The order of pairs. -/
def rangeOrder (c d : ℤ × ℤ) : Prop := c.1 < d.1 ∨ c.1 = d.1 ∧ c.2 ≤ d.2

instance : DecidableRel rangeOrder := fun c d => inferInstanceAs (Decidable (c.1 < d.1 ∨ c.1 = d.1 ∧ c.2 ≤ d.2))

/-- What the cuts leave from `start` on. -/
def keepsFrom (outF : ℤ) : ℤ → List (ℤ × ℤ) → List (ℤ × ℤ)
  | start, [] => if start ≤ outF then [(start, outF)] else []
  | start, (a, b) :: cuts =>
    (if start < a then [(start, a - 1)] else []) ++ keepsFrom outF (max start b) cuts

def keeps (inF outF : ℤ) (ranges : List (ℤ × ℤ)) (minPiece : ℤ) : List (ℤ × ℤ) :=
  (keepsFrom outF inF ((clipped inF outF ranges).insertionSort rangeOrder)).filter
    (fun k => minPiece ≤ k.2 - k.1 + 1)

/-- The `n`-th piece of the placement `p` of an item: the first stays the item. -/
def cutPiece (item : ℕ) (p : Placement) (n : ℕ) (keep : ℤ × ℤ) : Placement where
  source := if n = 0 then .existing item else .piece item
  inFrame := some keep.1
  outFrame := some keep.2
  mixIn := if n = 0 then p.mixIn else none
  gainDb := p.gainDb
  limiter := p.limiter

/-- `none` where there is no placement at `pos`: the index panics. -/
def cutRanges (wanted : List Placement) (pos item : ℕ) (inF outF : ℤ) (ranges : List (ℤ × ℤ)) (minPiece : ℤ) :
    Option (List Placement × ℤ) :=
  match wanted[pos]? with
  | none => none
  | some p =>
    let keeps := keeps inF outF ranges minPiece
    let kept := (keeps.map (fun k => k.2 - k.1 + 1)).sum
    some (wanted.take pos ++ keeps.mapIdx (cutPiece item p) ++ wanted.drop (pos + 1), (outF - inF + 1) - kept)

/-! ## What is left -/

/-- A frame from `start` to the clip's end that no range takes. -/
def Uncut (outF : ℤ) (ranges : List (ℤ × ℤ)) (start x : ℤ) : Prop :=
  start ≤ x ∧ x ≤ outF ∧ ∀ r ∈ ranges, ¬(r.1 ≤ x ∧ x < r.2)

section sweep
variable {inF outF start : ℤ} {ranges cuts : List (ℤ × ℤ)}

/-- A cut that begins at or before the place moves it. -/
theorem uncut_cons_of_le {c : ℤ × ℤ} (h : c.1 ≤ start) (x : ℤ) :
    Uncut outF (c :: cuts) start x ↔ Uncut outF cuts (max start c.2) x := by
  simp only [Uncut, List.forall_mem_cons]
  constructor
  · rintro ⟨hstart, hout, hnot, hrest⟩
    exact ⟨by omega, hout, hrest⟩
  · rintro ⟨hstart, hout, hrest⟩
    exact ⟨by omega, hout, by omega, hrest⟩

/-- A cut after the place, and before all others, leaves the frames in front of it. -/
theorem uncut_cons_of_lt {c : ℤ × ℤ} (h : start < c.1) (hpos : c.1 < c.2) (hout : c.2 ≤ outF + 1)
    (hfirst : ∀ d ∈ cuts, c.1 ≤ d.1) (x : ℤ) :
    Uncut outF (c :: cuts) start x ↔ (start ≤ x ∧ x ≤ c.1 - 1) ∨ Uncut outF cuts (max start c.2) x := by
  simp only [Uncut, List.forall_mem_cons]
  constructor
  · rintro ⟨hstart, hx, hnot, hrest⟩
    by_cases hbefore : x < c.1
    · exact .inl (by omega)
    · exact .inr ⟨by omega, hx, hrest⟩
  · rintro (hin | ⟨hstart, hx, hrest⟩)
    · refine ⟨hin.1, by omega, by omega, fun d hd => ?_⟩
      have := hfirst d hd
      omega
    · exact ⟨by omega, hx, by omega, hrest⟩

/-- The sweep keeps exactly the maximal runs. -/
theorem mem_keepsFrom_iff (hsorted : cuts.Pairwise rangeOrder) (hcuts : ∀ c ∈ cuts, c.1 < c.2 ∧ c.2 ≤ outF + 1)
    (k : ℤ × ℤ) : k ∈ keepsFrom outF start cuts ↔ IsMaximalRun (Uncut outF cuts start) k.1 k.2 := by
  induction cuts generalizing start with
  | nil =>
    unfold keepsFrom
    split
    · rename_i hle
      rw [List.mem_singleton, isMaximalRun_Icc hle (fun x => by simp [Uncut]), Prod.ext_iff]
    · rename_i hlt
      refine iff_of_false List.not_mem_nil (not_isMaximalRun_of_empty fun x hx => ?_)
      have hstart := hx.1
      have hout := hx.2.1
      omega
  | cons c cuts ih =>
    rw [List.pairwise_cons] at hsorted
    obtain ⟨hpos, hout⟩ := hcuts c List.mem_cons_self
    have hfirst : ∀ d ∈ cuts, c.1 ≤ d.1 := by
      intro d hd
      obtain hlt | ⟨heq, -⟩ := hsorted.1 d hd
      · exact hlt.le
      · exact heq.le
    have hrest := @ih (max start c.2) hsorted.2 (fun d hd => hcuts d (List.mem_cons_of_mem c hd))
    rw [keepsFrom, List.mem_append, hrest]
    by_cases hlt : start < c.1
    · rw [if_pos hlt, List.mem_singleton, isMaximalRun_front (by omega) (uncut_cons_of_lt hlt hpos hout hfirst)
        (fun x hx => by have := hx.1; omega), Prod.ext_iff]
    · rw [if_neg hlt, isMaximalRun_congr (uncut_cons_of_le (by omega))]
      simp

/-- The frames kept are in order, and cut off from each other. -/
theorem pairwise_keepsFrom (hcuts : ∀ c ∈ cuts, c.1 < c.2) :
    (∀ k ∈ keepsFrom outF start cuts, start ≤ k.1) ∧
      (keepsFrom outF start cuts).Pairwise (fun k k' => k.2 < k'.1) := by
  induction cuts generalizing start with
  | nil =>
    unfold keepsFrom
    split <;> simp
  | cons c cuts ih =>
    have hpos := hcuts c List.mem_cons_self
    obtain ⟨hfrom, hpairs⟩ := @ih (max start c.2) (fun d hd => hcuts d (List.mem_cons_of_mem c hd))
    rw [keepsFrom]
    constructor
    · intro k hk
      obtain hk | hk := List.mem_append.mp hk
      · split at hk
        · obtain rfl := List.mem_singleton.mp hk
          exact le_rfl
        · cases hk
      · have := hfrom k hk
        omega
    · refine List.pairwise_append.mpr ⟨by split <;> simp, hpairs, fun k hk k' hk' => ?_⟩
      have hafter := hfrom k' hk'
      split at hk
      · obtain rfl := List.mem_singleton.mp hk
        dsimp only
        omega
      · cases hk

end sweep

section keeps
variable {inF outF minPiece : ℤ} {ranges : List (ℤ × ℤ)}

theorem mem_clipped {c : ℤ × ℤ} (h : c ∈ clipped inF outF ranges) : c.1 < c.2 ∧ c.2 ≤ outF + 1 := by
  obtain ⟨hmem, hpos⟩ := List.mem_filter.mp h
  obtain ⟨r, -, rfl⟩ := List.mem_map.mp hmem
  exact ⟨by simpa using hpos, min_le_right _ _⟩

/-- Clipping the ranges leaves the same frames. -/
theorem uncut_clipped (x : ℤ) :
    Uncut outF ((clipped inF outF ranges).insertionSort rangeOrder) inF x ↔ Uncut outF ranges inF x := by
  have hmem : ∀ c, c ∈ (clipped inF outF ranges).insertionSort rangeOrder ↔ c ∈ clipped inF outF ranges :=
    fun c => (List.perm_insertionSort rangeOrder _).mem_iff
  simp only [Uncut, hmem]
  constructor
  · rintro ⟨hin, hout, hnot⟩
    refine ⟨hin, hout, fun r hr hx => hnot (max r.1 inF, min r.2 (outF + 1)) ?_ (by dsimp only; omega)⟩
    refine List.mem_filter.mpr ⟨List.mem_map_of_mem hr, ?_⟩
    simp only [decide_eq_true_eq]
    omega
  · rintro ⟨hin, hout, hnot⟩
    refine ⟨hin, hout, fun c hc hx => ?_⟩
    obtain ⟨r, hr, rfl⟩ := List.mem_map.mp (List.mem_filter.mp hc).1
    refine hnot r hr ?_
    dsimp only at hx
    omega

theorem pairwise_sorted (cuts : List (ℤ × ℤ)) : (cuts.insertionSort rangeOrder).Pairwise rangeOrder := by
  have htotal : Std.Total rangeOrder := ⟨fun c d => by unfold rangeOrder; omega⟩
  have htrans : IsTrans (ℤ × ℤ) rangeOrder := ⟨fun c d e => by unfold rangeOrder; omega⟩
  exact List.pairwise_insertionSort rangeOrder cuts

/-- What is kept is the maximal runs of uncut frames that are long enough. -/
theorem mem_keeps_iff (k : ℤ × ℤ) : k ∈ keeps inF outF ranges minPiece ↔
    IsMaximalRun (Uncut outF ranges inF) k.1 k.2 ∧ minPiece ≤ k.2 - k.1 + 1 := by
  have hcuts : ∀ c ∈ (clipped inF outF ranges).insertionSort rangeOrder, c.1 < c.2 ∧ c.2 ≤ outF + 1 :=
    fun c hc => mem_clipped ((List.perm_insertionSort rangeOrder _).mem_iff.mp hc)
  rw [keeps, List.mem_filter, mem_keepsFrom_iff (pairwise_sorted _) hcuts, isMaximalRun_congr uncut_clipped,
    decide_eq_true_eq]

theorem pairwise_keeps : (keeps inF outF ranges minPiece).Pairwise (fun k k' => k.2 < k'.1) := by
  have hcuts : ∀ c ∈ (clipped inF outF ranges).insertionSort rangeOrder, c.1 < c.2 :=
    fun c hc => (mem_clipped ((List.perm_insertionSort rangeOrder _).mem_iff.mp hc)).1
  exact (pairwise_keepsFrom hcuts).2.filter _

/-- The frames of the clip that are not kept, counted. -/
theorem card_not_kept (hclip : inF ≤ outF + 1) :
    (((Finset.Icc inF outF).filter (fun x => ¬ Covers (keeps inF outF ranges minPiece) x)).card : ℤ) =
      outF - inF + 1 - total (keeps inF outF ranges minPiece) := by
  have hkept := @card_covers inF outF _ (fun k hk => ((mem_keeps_iff k).mp hk).1.le)
    (@pairwise_keeps inF outF minPiece ranges) (fun k hk => by
      have hrun := ((mem_keeps_iff k).mp hk).1
      exact (hrun.all k.1 le_rfl hrun.le).1) (fun k hk => by
      have hrun := ((mem_keeps_iff k).mp hk).1
      exact (hrun.all k.2 hrun.le le_rfl).2.1)
  have hall := Finset.card_filter_add_card_filter_not (s := Finset.Icc inF outF)
    (Covers (keeps inF outF ranges minPiece))
  rw [Int.card_Icc] at hall
  omega

end keeps

/-! ## The placements -/

/-- Whether a placement shows a frame between its points. -/
def Placement.Shows (p : Placement) (x : ℤ) : Prop := ∃ a ∈ p.inFrame, ∃ b ∈ p.outFrame, a ≤ x ∧ x ≤ b

theorem exists_shows_iff (item : ℕ) (p : Placement) (kept : List (ℤ × ℤ)) (x : ℤ) :
    (∃ q ∈ kept.mapIdx (cutPiece item p), q.Shows x) ↔ Covers kept x := by
  constructor
  · rintro ⟨q, hq, hshows⟩
    obtain ⟨n, hn, rfl⟩ := List.mem_mapIdx.mp hq
    obtain ⟨a, ha, b, hb, hx⟩ := hshows
    obtain rfl := Option.some.inj ha
    obtain rfl := Option.some.inj hb
    exact ⟨kept[n], List.getElem_mem hn, hx⟩
  · rintro ⟨k, hk, hx⟩
    obtain ⟨n, hn, rfl⟩ := List.mem_iff_getElem.mp hk
    exact ⟨cutPiece item p n kept[n], List.mem_mapIdx.mpr ⟨n, hn, rfl⟩, _, rfl, _, rfl, hx⟩

theorem pairwise_pieces (item : ℕ) (p : Placement) {kept : List (ℤ × ℤ)}
    (hkept : kept.Pairwise (fun k k' => k.2 < k'.1)) :
    (kept.mapIdx (cutPiece item p)).Pairwise (fun q q' => ∀ x y, q.Shows x → q'.Shows y → x < y) := by
  rw [List.pairwise_iff_getElem] at hkept ⊢
  intro i j hi hj hlt x y hx hy
  rw [List.getElem_mapIdx] at hx hy
  rw [List.length_mapIdx] at hi hj
  have hapart := hkept i j hi hj hlt
  obtain ⟨a, ha, b, hb, hx⟩ := hx
  obtain ⟨a', ha', b', hb', hy⟩ := hy
  obtain rfl := Option.some.inj hb
  obtain rfl := Option.some.inj ha'
  omega

/-- The frames of a clip that no placement of a list shows. -/
def unshown (inF outF : ℤ) (pieces : List Placement) : Set ℤ :=
  {x | inF ≤ x ∧ x ≤ outF ∧ ¬ ∃ q ∈ pieces, q.Shows x}

/-- Cutting ranges out of a placement puts the long enough runs of uncut frames in its place. -/
theorem cutRanges_keepsUncut (front back : List Placement) (p : Placement) (item : ℕ) (inF outF : ℤ)
    (ranges : List (ℤ × ℤ)) (minPiece : ℤ) :
    ∃ (pieces : List Placement) (removed : ℤ),
      cutRanges (front ++ p :: back) front.length item inF outF ranges minPiece =
        some (front ++ pieces ++ back, removed) ∧
      (∀ q ∈ pieces, ∃ x, q.Shows x) ∧
      pieces.Pairwise (fun q q' => ∀ x y, q.Shows x → q'.Shows y → x < y) ∧
      (∀ x, (∃ q ∈ pieces, q.Shows x) ↔
        ∃ a b, IsMaximalRun (Uncut outF ranges inF) a b ∧ minPiece ≤ b - a + 1 ∧ a ≤ x ∧ x ≤ b) ∧
      (∀ n q, pieces[n]? = some q → q.source = (if n = 0 then .existing item else .piece item) ∧
        q.mixIn = (if n = 0 then p.mixIn else none) ∧ q.gainDb = p.gainDb ∧ q.limiter = p.limiter) ∧
      (inF ≤ outF + 1 → removed = ((unshown inF outF pieces).ncard : ℤ)) := by
  have hat : (front ++ p :: back)[front.length]? = some p := by simp
  have htake : (front ++ p :: back).take front.length = front := List.take_left
  have hdrop : (front ++ p :: back).drop (front.length + 1) = back := by simp
  refine ⟨(keeps inF outF ranges minPiece).mapIdx (cutPiece item p), outF - inF + 1 - total (keeps inF outF ranges
    minPiece), ?_, ?_, pairwise_pieces item p pairwise_keeps, ?_, ?_, ?_⟩
  · unfold cutRanges
    rw [hat, htake, hdrop]
    rfl
  · intro q hq
    obtain ⟨n, hn, rfl⟩ := List.mem_mapIdx.mp hq
    have hle := ((mem_keeps_iff _).mp (List.getElem_mem hn)).1.le
    exact ⟨_, _, rfl, _, rfl, le_rfl, hle⟩
  · intro x
    rw [exists_shows_iff]
    constructor
    · rintro ⟨k, hk, hx⟩
      obtain ⟨hrun, hlong⟩ := (mem_keeps_iff k).mp hk
      exact ⟨k.1, k.2, hrun, hlong, hx⟩
    · rintro ⟨a, b, hrun, hlong, hx⟩
      exact ⟨(a, b), (mem_keeps_iff (a, b)).mpr ⟨hrun, hlong⟩, hx⟩
  · intro n q hq
    rw [List.getElem?_mapIdx] at hq
    obtain ⟨k, -, rfl⟩ := Option.map_eq_some_iff.mp hq
    exact ⟨rfl, rfl, rfl, rfl⟩
  · intro hclip
    have hset : unshown inF outF ((keeps inF outF ranges minPiece).mapIdx (cutPiece item p)) =
        ((Finset.Icc inF outF).filter (fun x => ¬ Covers (keeps inF outF ranges minPiece) x) : Finset ℤ) := by
      ext x
      simp only [unshown, Set.mem_ofPred_eq, exists_shows_iff, Finset.coe_filter, Finset.mem_Icc, and_assoc]
    rw [hset, Set.ncard_coe_finset, card_not_kept hclip]

/-- A clip that ends two frames before it begins. -/
theorem cutRanges_inverted :
    ¬ ∀ (p : Placement) (item : ℕ) (inF outF : ℤ) (ranges : List (ℤ × ℤ)) (minPiece : ℤ) (pieces : List Placement)
      (removed : ℤ), 1 ≤ minPiece → cutRanges [p] 0 item inF outF ranges minPiece = some (pieces, removed) →
      removed = ((unshown inF outF pieces).ncard : ℤ) := by
  intro h
  have hcount := h (.of (.existing 0)) 0 5 3 [] 1 [] (-1) le_rfl rfl
  omega

end Haruspex.Kdenlive
