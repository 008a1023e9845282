import Haruspex.Kdenlive.Layout
import Haruspex.Library.Spans

/-! What a layout says of each clip: the placement it comes from and the clip before it give it its
frames, its start and its lanes. -/
namespace Haruspex.Kdenlive
open Spans
set_option autoImplicit false

variable {doc : Doc} {items : List Item} {mixes : List ItemMix}

/-! ## From clip to clip -/

/-- The lanes of a clip, its picture's and its sound's. -/
def lanesFor (doc : Doc) (items : List Item) (mixes : List ItemMix) (prev : Option Laid)
    (source : Source) (mixIn : Option ℤ) : ℕ × ℕ :=
  if inUserMix mixes source then
    ((defaults doc items source).videoLane, (defaults doc items source).audioLane)
  else
    match prev, mixIn with
    | some prev, some _ => (1 - min prev.videoLane 1, 1 - min prev.videoLane 1)
    | _, _ => (0, 0)

/-- A clip comes from a placement and the clip before it. -/
structure LaidFrom (doc : Doc) (items : List Item) (mixes : List ItemMix) (prev : Option Laid)
    (p : Placement) (l : Laid) : Prop where
  source : l.source = p.source
  inFrame : l.inFrame = shownIn doc items p
  outFrame : l.outFrame = shownOut doc items p
  fits : shownIn doc items p ≤ shownOut doc items p
  mixIn : l.mixIn = (crossfadeFrom doc items mixes prev p).1
  start : l.start = startOf items mixes prev l.mixIn p.source
  lanes : (l.videoLane, l.audioLane) = lanesFor doc items mixes prev p.source l.mixIn

/-- Each clip of a list comes from its placement and the clip before. -/
inductive LaysOut (doc : Doc) (items : List Item) (mixes : List ItemMix) :
    Option Laid → List Placement → List Laid → Prop
  | nil (prev : Option Laid) : LaysOut doc items mixes prev [] []
  | cons {prev : Option Laid} {p : Placement} {l : Laid} {wanted : List Placement}
      {laid : List Laid} (first : LaidFrom doc items mixes prev p l)
      (rest : LaysOut doc items mixes (some l) wanted laid) :
      LaysOut doc items mixes prev (p :: wanted) (l :: laid)

theorem LaidFrom.len {prev : Option Laid} {p : Placement} {l : Laid}
    (h : LaidFrom doc items mixes prev p l) : l.len = length doc items p := by
  unfold Laid.len length
  rw [h.inFrame, h.outFrame]

theorem LaidFrom.len_pos {prev : Option Laid} {p : Placement} {l : Laid}
    (h : LaidFrom doc items mixes prev p l) : 0 < l.len := by
  have hfits := h.fits
  rw [h.len]
  unfold length
  omega

theorem LaysOut.length_eq {prev : Option Laid} {wanted : List Placement} {laid : List Laid}
    (h : LaysOut doc items mixes prev wanted laid) : laid.length = wanted.length := by
  induction h with
  | nil => rfl
  | cons _ _ ih => simp [ih]

/-- The clip at a place comes from the placement there and the clip before. -/
theorem LaysOut.getElem? {prev : Option Laid} {wanted : List Placement} {laid : List Laid}
    (h : LaysOut doc items mixes prev wanted laid) {k : ℕ} {p : Placement}
    (hp : wanted[k]? = some p) : ∃ l, laid[k]? = some l ∧
      LaidFrom doc items mixes (if k = 0 then prev else laid[k - 1]?) p l := by
  induction h generalizing k with
  | nil => cases hp
  | cons first rest ih =>
    cases k with
    | zero =>
      obtain rfl := Option.some.inj hp
      exact ⟨_, rfl, first⟩
    | succ k =>
      obtain ⟨l, hl, hfrom⟩ := ih hp
      refine ⟨l, hl, ?_⟩
      cases k with
      | zero => exact hfrom
      | succ k => exact hfrom

theorem LaysOut.placement {prev : Option Laid} {wanted : List Placement} {laid : List Laid}
    (h : LaysOut doc items mixes prev wanted laid) {k : ℕ} {l : Laid} (hl : laid[k]? = some l) :
    ∃ p, wanted[k]? = some p ∧
      LaidFrom doc items mixes (if k = 0 then prev else laid[k - 1]?) p l := by
  have hlt : k < wanted.length := by
    rw [← h.length_eq]
    exact (List.getElem?_eq_some_iff.mp hl).1
  obtain ⟨l', hl', hfrom⟩ := h.getElem? (List.getElem?_eq_getElem hlt)
  rw [hl] at hl'
  obtain rfl := Option.some.inj hl'
  exact ⟨_, List.getElem?_eq_getElem hlt, hfrom⟩

/-! ## The clips of a layout -/

/-- What the next clip sees of the one before. -/
def Laid.seen (l : Laid) : Source × ℤ × ℤ := (l.source, l.len, l.endFrame)

theorem crossfadeFrom_congr {prev prev' : Option Laid}
    (h : prev.map Laid.seen = prev'.map Laid.seen) (p : Placement) :
    crossfadeFrom doc items mixes prev p = crossfadeFrom doc items mixes prev' p := by
  cases prev with
  | none =>
    cases prev' with
    | none => rfl
    | some b => cases h
  | some a =>
    cases prev' with
    | none => cases h
    | some b =>
      obtain ⟨hsource, hlen, -⟩ : a.source = b.source ∧ a.len = b.len ∧ a.endFrame = b.endFrame := by
        simpa [Laid.seen] using h
      simp only [crossfadeFrom, hsource, hlen]

theorem startOf_congr {prev prev' : Option Laid} (h : prev.map Laid.seen = prev'.map Laid.seen)
    (mixIn : Option ℤ) (source : Source) :
    startOf items mixes prev mixIn source = startOf items mixes prev' mixIn source := by
  cases prev with
  | none =>
    cases prev' with
    | none => rfl
    | some b => cases h
  | some a =>
    cases prev' with
    | none => cases h
    | some b =>
      obtain ⟨hsource, -, hend⟩ : a.source = b.source ∧ a.len = b.len ∧ a.endFrame = b.endFrame := by
        simpa [Laid.seen] using h
      simp only [startOf, hsource, hend]

@[simp] theorem assignLane_seen (prev : Option Laid) (l : Laid) :
    (assignLane mixes prev l).seen = l.seen := by
  unfold assignLane
  split <;> rfl

theorem layClip_ok {prev : Option Laid} {pos : ℕ} {p : Placement} {l : Laid} {told : List String}
    (h : layClip doc items mixes prev pos p = .ok (l, told)) :
    shownIn doc items p ≤ shownOut doc items p ∧
      l = { source := p.source
            start := startOf items mixes prev (crossfadeFrom doc items mixes prev p).1 p.source
            inFrame := shownIn doc items p
            outFrame := shownOut doc items p
            videoLane := (defaults doc items p.source).videoLane
            audioLane := (defaults doc items p.source).audioLane
            mixIn := (crossfadeFrom doc items mixes prev p).1
            gainDb := p.gainDb
            limiter := p.limiter
            binId := (defaults doc items p.source).binId } := by
  unfold layClip at h
  dsimp only at h
  split at h
  · cases h
  · rename_i hfits
    exact ⟨not_lt.mp hfits, (congrArg Prod.fst (Except.ok.inj h)).symm⟩

theorem layClip_assigned {prev prev' : Option Laid} {pos : ℕ} {p : Placement} {l : Laid}
    {told : List String} (hseen : prev.map Laid.seen = prev'.map Laid.seen)
    (h : layClip doc items mixes prev pos p = .ok (l, told)) :
    LaidFrom doc items mixes prev' p (assignLane mixes prev' l) := by
  obtain ⟨hfits, rfl⟩ := layClip_ok h
  rw [crossfadeFrom_congr hseen, startOf_congr hseen]
  unfold assignLane
  split
  · rename_i hmix
    exact ⟨rfl, rfl, rfl, hfits, rfl, rfl, by simp [lanesFor, hmix]⟩
  · rename_i hmix
    refine ⟨rfl, rfl, rfl, hfits, rfl, rfl, ?_⟩
    simp only [lanesFor, hmix, Bool.false_eq_true, if_false]
    cases prev' with
    | none => rfl
    | some prev' => cases (crossfadeFrom doc items mixes (some prev') p).1 <;> rfl

theorem layClips_assigned {prev prev' : Option Laid} {pos : ℕ} {wanted : List Placement}
    {laid : List Laid} {notes : List String} (hseen : prev.map Laid.seen = prev'.map Laid.seen)
    (h : layClips doc items mixes prev pos wanted = .ok (laid, notes)) :
    LaysOut doc items mixes prev' wanted (assignFrom mixes prev' laid) := by
  induction wanted generalizing prev prev' pos laid notes with
  | nil =>
    obtain ⟨rfl, -⟩ := Prod.mk.inj (Except.ok.inj h)
    exact .nil prev'
  | cons p rest ih =>
    unfold layClips at h
    cases hfirst : layClip doc items mixes prev pos p with
    | error e =>
      rw [hfirst] at h
      cases h
    | ok first =>
      obtain ⟨l, told⟩ := first
      rw [hfirst] at h
      cases hrest : layClips doc items mixes (some l) (pos + 1) rest with
      | error e =>
        simp only [hrest, bind, Except.bind] at h
        cases h
      | ok later =>
        obtain ⟨later, more⟩ := later
        simp only [hrest, bind, Except.bind, pure, Except.pure] at h
        obtain ⟨rfl, -⟩ := Prod.mk.inj (Except.ok.inj h)
        have hafter : (some l).map Laid.seen = (some (assignLane mixes prev' l)).map Laid.seen := by
          simp
        exact .cons (layClip_assigned hseen hfirst) (ih hafter hrest)

/-- Clips are laid when each shows a frame at least. -/
theorem layClips_succeeds {wanted : List Placement}
    (h : ∀ p ∈ wanted, shownIn doc items p ≤ shownOut doc items p) (prev : Option Laid) (pos : ℕ) :
    ∃ laid notes, layClips doc items mixes prev pos wanted = .ok (laid, notes) := by
  induction wanted generalizing prev pos with
  | nil => exact ⟨[], [], rfl⟩
  | cons p rest ih =>
    have hfits : ¬shownOut doc items p < shownIn doc items p :=
      not_lt.mpr (h p List.mem_cons_self)
    have hfirst : ∃ l told, layClip doc items mixes prev pos p = .ok (l, told) := by
      unfold layClip
      dsimp only
      rw [if_neg hfits]
      exact ⟨_, _, rfl⟩
    obtain ⟨l, told, hfirst⟩ := hfirst
    obtain ⟨later, more, hrest⟩ :=
      ih (fun q hq => h q (List.mem_cons_of_mem p hq)) (some l) (pos + 1)
    refine ⟨l :: later, told ++ more, ?_⟩
    unfold layClips
    rw [hfirst]
    simp [hrest, bind, Except.bind, pure, Except.pure]

/-! ## The lanes of a layout -/

instance : Std.Total onLaneOrder where
  total x y := by
    unfold onLaneOrder
    omega

instance : IsTrans OnLane onLaneOrder where
  trans x y z hxy hyz := by
    unfold onLaneOrder at *
    omega

theorem find_neighbours_none {A : Type} (p : A → A → Bool) (l : List A) :
    (l.zip l.tail).find? (fun w => p w.1 w.2) = none ↔ l.IsChain (fun a b => p a b = false) := by
  induction l with
  | nil => simp
  | cons a rest ih =>
    cases rest with
    | nil => simp
    | cons b rest =>
      rw [List.isChain_cons_cons, ← ih]
      simp

/-- On a lane the clips are apart. -/
def ApartOn (laid : List Laid) (lane : ℕ) : Prop :=
  (laid.filter (fun l => l.videoLane = lane)).Pairwise (Apart Laid.start Laid.endFrame)

theorem overlapping_eq_none {laid : List Laid} (lane : ℕ) (hlen : ∀ l ∈ laid, 0 < l.len) :
    overlapping laid lane = none ↔ ApartOn laid lane := by
  let clips := (laid.zipIdx.filter (fun l => l.1.videoLane = lane)).map
    (fun l => (l.1.start, l.1.endFrame, l.2))
  have horder : ∀ x y : OnLane, onLaneOrder x y → x.1 ≤ y.1 := by
    intro x y h
    unfold onLaneOrder at h
    omega
  have hlt : ∀ x ∈ clips, x.1 < x.2.1 := by
    intro x hx
    obtain ⟨⟨l, k⟩, hl, rfl⟩ := List.mem_map.mp hx
    have hmem : l ∈ laid := List.fst_mem_of_mem_zipIdx (List.mem_filter.mp hl).1
    have := hlen l hmem
    show l.start < l.start + l.len
    omega
  have hsorted := neighbours_insertionSort_iff (r := onLaneOrder) horder hlt
  have hfind : overlapping laid lane = none ↔
      (clips.insertionSort onLaneOrder).IsChain (fun x y => x.2.1 ≤ y.1) := by
    have h := find_neighbours_none (fun x y : OnLane => decide (y.1 < x.2.1))
      (clips.insertionSort onLaneOrder)
    simp only [decide_eq_false_iff_not, not_lt] at h
    exact h
  have hfst : (laid.zipIdx.filter (fun l => l.1.videoLane = lane)).map Prod.fst =
      laid.filter (fun l => l.videoLane = lane) := by
    conv_rhs => rw [← List.zipIdx_map_fst 0 laid, List.filter_map]
    rfl
  rw [hfind, hsorted]
  unfold ApartOn
  rw [← hfst, List.pairwise_map, List.pairwise_map]
  rfl

theorem checkLanes_ok {laid : List Laid} (hlen : ∀ l ∈ laid, 0 < l.len) :
    checkLanes laid = .ok () ↔ ApartOn laid 0 ∧ ApartOn laid 1 := by
  rw [← overlapping_eq_none 0 hlen, ← overlapping_eq_none 1 hlen, ← Option.or_eq_none_iff]
  unfold checkLanes
  split
  · rename_i h
    simp [h]
  · rename_i h
    simp [h]

/-! ## The whole layout -/

theorem checkMixes_ok {wanted : List Placement} {mixes : List ItemMix} :
    checkMixes items wanted mixes = .ok () ↔ ∀ mix ∈ mixes, keepsMix items wanted mix = true := by
  induction mixes with
  | nil => simp [checkMixes]
  | cons mix rest ih =>
    unfold checkMixes
    by_cases hmix : keepsMix items wanted mix
    · simp [hmix, ih]
    · simp [hmix]

theorem layout_ok {wanted : List Placement} {laid : List Laid} {notes : List String}
    (h : layout doc items wanted = .ok (laid, notes)) :
    checkSources items [] wanted = .ok () ∧
      checkMixes items wanted (itemMixes doc items) = .ok () ∧
      LaysOut doc items (itemMixes doc items) none wanted laid ∧ checkLanes laid = .ok () := by
  unfold layout at h
  simp only [bind, Except.bind, pure, Except.pure] at h
  cases hsources : checkSources items [] wanted with
  | error e => simp [hsources] at h
  | ok _ =>
    cases hmixes : checkMixes items wanted (itemMixes doc items) with
    | error e => simp [hsources, hmixes] at h
    | ok _ =>
      cases hclips : layClips doc items (itemMixes doc items) none 0 wanted with
      | error e => simp [hsources, hmixes, hclips] at h
      | ok clips =>
        obtain ⟨clips, told⟩ := clips
        cases hlanes : checkLanes (assignFrom (itemMixes doc items) none clips) with
        | error e => simp [hsources, hmixes, hclips, hlanes] at h
        | ok _ =>
          simp only [hsources, hmixes, hclips, hlanes, Except.ok.injEq, Prod.mk.injEq] at h
          obtain ⟨rfl, -⟩ := h
          exact ⟨rfl, rfl, layClips_assigned rfl hclips, hlanes⟩

theorem layout_succeeds {wanted : List Placement} (hsources : checkSources items [] wanted = .ok ())
    (hmixes : checkMixes items wanted (itemMixes doc items) = .ok ())
    (hfits : ∀ p ∈ wanted, shownIn doc items p ≤ shownOut doc items p)
    (hlanes : ∀ laid, LaysOut doc items (itemMixes doc items) none wanted laid →
      checkLanes laid = .ok ()) :
    ∃ laid notes, layout doc items wanted = .ok (laid, notes) := by
  have hsome : ∃ clips told, layClips doc items (itemMixes doc items) none 0 wanted =
      .ok (clips, told) := layClips_succeeds hfits none 0
  obtain ⟨clips, told, hclips⟩ := hsome
  have hlaid := hlanes _ (layClips_assigned rfl hclips)
  refine ⟨assignFrom (itemMixes doc items) none clips, told, ?_⟩
  unfold layout
  simp only [bind, Except.bind, pure, Except.pure, hsources, hmixes, hclips, hlaid]

end Haruspex.Kdenlive
