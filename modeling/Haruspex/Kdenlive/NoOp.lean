import Haruspex.Kdenlive.Current
import Haruspex.Kdenlive.Timecode

/-! Applying the current cut changes nothing exactly when the cut is plain. -/
namespace Haruspex.Kdenlive
open Spans
set_option autoImplicit false

variable {doc : Doc} {laid : List Laid} {texts : Texts}

/-! ## The gap between two items -/

theorem mixInto_eq (k : ℕ) : mixInto doc (k + 1) =
    mixBetween (itemMixes doc doc.items) (.existing k) (.existing (k + 1)) := rfl

/-- The crossfade of a layout into an item. -/
theorem current_crossfade (k : ℕ) (len : ℤ) :
    (crossfade doc doc.items (itemMixes doc doc.items) (.existing k) len
      (currentClip doc doc.items (k + 1))).1 =
      if fadedInto doc (k + 1) then
        (some (min (doc.items[k]!.endFrame - doc.items[k + 1]!.start)
          (min len (length doc doc.items (currentClip doc doc.items (k + 1))) / 2))).filter
            (fun d => 0 < d)
      else none := by
  unfold crossfade
  rw [currentClip_mixIn, (currentClip_source doc.items (k + 1)).1, ← mixInto_eq]
  by_cases hfaded : fadedInto doc (k + 1) = true
  · obtain ⟨hours, hover, hmix⟩ := (fadedInto_iff k).mp hfaded
    rw [if_pos hfaded, if_pos ⟨hours, hover⟩, hmix]
    rfl
  · rw [if_neg hfaded]
    by_cases hboth : doc.items[k + 1]!.start ∈ ourStarts doc ∧
        doc.items[k + 1]!.start < doc.items[k]!.endFrame
    · have hmix : mixInto doc (k + 1) ≠ none := fun hnone =>
        hfaded ((fadedInto_iff k).mpr ⟨hboth.1, hboth.2, hnone⟩)
      rw [if_pos hboth]
      dsimp only
      rw [if_pos (Option.isSome_iff_ne_none.mpr hmix)]
    · rw [if_neg hboth]

theorem current_gap_plain {k : ℕ} (hmix : mixInto doc (k + 1) = none) :
    gapAfter doc.items (itemMixes doc doc.items) (.existing k) none (.existing (k + 1)) =
      max (doc.items[k + 1]!.start - doc.items[k]!.endFrame) 0 := by
  unfold gapAfter
  rw [← mixInto_eq, hmix]
  simp

/-- The gap to the next item is the one there is exactly when they are joined as a layout joins. -/
theorem current_gap_iff {k : ℕ} (hpos : 0 < doc.items[k]!.any.len)
    (hlen : length doc doc.items (currentClip doc doc.items k) = doc.items[k]!.any.len)
    (hlen' : length doc doc.items (currentClip doc doc.items (k + 1)) = doc.items[k + 1]!.any.len) :
    gapBetween doc (currentClip doc doc.items k) (currentClip doc doc.items (k + 1)) =
      doc.items[k + 1]!.start - doc.items[k]!.endFrame ↔ Joint doc k := by
  have hsource := (@currentClip_source doc doc.items k).1
  have hsource' := (@currentClip_source doc doc.items (k + 1)).1
  unfold Joint
  cases hmix : mixInto doc (k + 1) with
  | some mix =>
    have hof : mixOf doc (currentClip doc doc.items k) (currentClip doc doc.items (k + 1)) =
        some mix := by
      unfold mixOf
      rw [hsource, hsource', ← mixInto_eq, hmix]
    rw [gapBetween_of_mix hof, mixInto_frames hmix]
    simp only [Option.isSome_some, if_true]
    omega
  | none =>
    have hplain := current_gap_plain hmix
    simp only [Option.isSome_none, Bool.false_eq_true, if_false]
    unfold gapBetween
    rw [hsource, hsource', current_crossfade, hlen, hlen']
    by_cases hfaded : fadedInto doc (k + 1) = true
    · obtain ⟨hours, hover, -⟩ := (fadedInto_iff k).mp hfaded
      rw [if_pos hfaded, Option.filter_some]
      split
      · rename_i hd
        have hd : 0 < min (doc.items[k]!.endFrame - doc.items[k + 1]!.start)
          (min doc.items[k]!.any.len doc.items[k + 1]!.any.len / 2) := by simpa using hd
        show -_ = _ ↔ _
        constructor
        · intro h
          exact Or.inr ⟨hours, by omega⟩
        · intro h
          omega
      · rename_i hd
        have hd : ¬0 < min (doc.items[k]!.endFrame - doc.items[k + 1]!.start)
          (min doc.items[k]!.any.len doc.items[k + 1]!.any.len / 2) := by simpa using hd
        rw [hplain]
        constructor
        · intro h
          omega
        · intro h
          omega
    · rw [if_neg hfaded, hplain]
      have hnot : ¬(doc.items[k + 1]!.start ∈ ourStarts doc ∧
          doc.items[k + 1]!.start < doc.items[k]!.endFrame) := fun h =>
        hfaded ((fadedInto_iff k).mpr ⟨h.1, h.2, hmix⟩)
      constructor
      · intro h
        exact Or.inl (by omega)
      · rintro (h | ⟨hours, -⟩)
        · omega
        · have := not_and.mp hnot hours
          omega

/-- A crossfade is carried over into an item that is joined as a layout joins. -/
theorem current_crossfade_isSome {k : ℕ} (hjoint : Joint doc k) {len : ℤ}
    (hlen : len = doc.items[k]!.any.len)
    (hlen' : length doc doc.items (currentClip doc doc.items (k + 1)) = doc.items[k + 1]!.any.len) :
    (crossfade doc doc.items (itemMixes doc doc.items) (.existing k) len
      (currentClip doc doc.items (k + 1))).1.isSome = fadedInto doc (k + 1) := by
  rw [current_crossfade, hlen, hlen']
  by_cases hfaded : fadedInto doc (k + 1) = true
  · obtain ⟨-, hover, hmix⟩ := (fadedInto_iff k).mp hfaded
    unfold Joint at hjoint
    simp only [hmix, Option.isSome_none, Bool.false_eq_true, if_false] at hjoint
    rw [if_pos hfaded, hfaded, Option.filter_some, if_pos]
    · rfl
    · simp only [decide_eq_true_eq]
      omega
  · rw [if_neg hfaded]
    simpa using hfaded

/-! ## Items that lie where they lay -/

abbrev From (doc : Doc) (before : Option Laid) (k : ℕ) (l : Laid) : Prop :=
  LaidFrom doc doc.items (itemMixes doc doc.items) before (currentClip doc doc.items k) l

/-- An item lies where its entries agree it lay, its picture on its lane. -/
structure Lies (doc : Doc) (k : ℕ) (l : Laid) : Prop where
  place : l.place = doc.items[k]!.any.place
  lane : l.videoLane = laneAt doc k

theorem Lies.len {k : ℕ} {l : Laid} (h : Lies doc k l) : l.len = doc.items[k]!.any.len := by
  obtain ⟨-, hframes⟩ := Prod.mk.inj h.place
  obtain ⟨hin, hout⟩ := Prod.mk.inj hframes
  unfold Laid.len Entry.len
  rw [hin, hout]

theorem Lies.start {k : ℕ} {l : Laid} (h : Lies doc k l) : l.start = doc.items[k]!.start :=
  (Prod.mk.inj h.place).1

theorem Lies.endFrame {k : ℕ} {l : Laid} (h : Lies doc k l) (hlinked : Linked doc.items[k]!) :
    l.endFrame = doc.items[k]!.endFrame := by
  rw [endFrame_of_linked hlinked, Laid.endFrame, h.len, h.start]

theorem From.source {before : Option Laid} {k : ℕ} {l : Laid} (h : From doc before k l) :
    l.source = .existing k := by
  rw [LaidFrom.source h, (currentClip_source doc.items k).1]

theorem From.user_lane {before : Option Laid} {k : ℕ} {l : Laid} (h : From doc before k l)
    (huser : inUserMix (itemMixes doc doc.items) (.existing k) = true) (part : Part) :
    l.lane part = laneOf (doc.items[k]!.entry part) := by
  have hsource := (@currentClip_source doc doc.items k).1
  obtain ⟨hvideo, haudio⟩ := LaidFrom.user_lanes h (by rw [hsource]; exact huser)
  rw [hsource] at hvideo haudio
  cases part with
  | video => exact hvideo
  | audio => exact haudio

theorem From.one_lane {before : Option Laid} {k : ℕ} {l : Laid} (h : From doc before k l)
    (huser : inUserMix (itemMixes doc doc.items) (.existing k) = false) (part : Part) :
    l.lane part = l.videoLane := by
  have hsource := (@currentClip_source doc doc.items k).1
  have hsame := LaidFrom.same_lanes h (by rw [hsource]; exact huser)
  cases part with
  | video => rfl
  | audio => exact hsame

theorem lies_of_keeps {before : Option Laid} {k : ℕ} {l : Laid} (h : From doc before k l)
    (hkeeps : Keeps doc.items[k]! l) : Lies doc k l := by
  obtain ⟨part, hany⟩ := any_entry doc.items[k]!
  obtain ⟨hplace, hlane⟩ := hkeeps part _ hany
  refine ⟨hplace, ?_⟩
  unfold laneAt
  cases huser : inUserMix (itemMixes doc doc.items) (.existing k) with
  | true =>
    rw [if_pos rfl]
    exact h.user_lane huser .video
  | false =>
    rw [if_neg Bool.false_ne_true, ← hlane, h.one_lane huser part]

theorem first_lane {l : Laid} (h : From doc none 0 l)
    (huser : inUserMix (itemMixes doc doc.items) (.existing 0) = false) :
    l.videoLane = plainLane doc 0 := by
  have hlanes := LaidFrom.lanes h
  unfold lanesFor at hlanes
  rw [(@currentClip_source doc doc.items 0).1, if_neg (by rw [huser]; exact Bool.false_ne_true)]
    at hlanes
  exact (Prod.mk.inj hlanes).1

theorem next_lane {k : ℕ} {l m : Laid} (h : From doc (some l) (k + 1) m)
    (huser : inUserMix (itemMixes doc doc.items) (.existing (k + 1)) = false)
    (hlane : l.videoLane = laneAt doc k) (hle : l.videoLane ≤ 1)
    (hmix : m.mixIn.isSome = fadedInto doc (k + 1)) : m.videoLane = plainLane doc (k + 1) := by
  have hlanes := LaidFrom.lanes h
  unfold lanesFor at hlanes
  rw [(@currentClip_source doc doc.items (k + 1)).1,
    if_neg (by rw [huser]; exact Bool.false_ne_true)] at hlanes
  unfold plainLane
  rw [← hmix, Nat.add_sub_cancel, ← hlane]
  cases hfade : m.mixIn with
  | none =>
    rw [hfade] at hlanes
    exact (Prod.mk.inj hlanes).1
  | some d =>
    rw [hfade] at hlanes
    have hvideo := (Prod.mk.inj hlanes).1
    simp only [Option.isSome_some, if_true]
    omega

/-- An item starts where it did when it is joined to the one before as a layout joins. -/
theorem joint_iff {before : Option Laid} {k : ℕ} {l m : Laid} (hl : From doc before k l)
    (hm : From doc (some l) (k + 1) m) (hlies : Lies doc k l) (hlinked : Linked doc.items[k]!)
    (hlen : m.len = doc.items[k + 1]!.any.len) : m.start = doc.items[k + 1]!.start ↔ Joint doc k := by
  have hpos : 0 < doc.items[k]!.any.len := by
    rw [← hlies.len]
    exact LaidFrom.len_pos hl
  rw [← current_gap_iff hpos ((LaidFrom.len hl).symm.trans hlies.len)
    ((LaidFrom.len hm).symm.trans hlen), start_next hl hm, hlies.endFrame hlinked]
  omega

theorem fade_isSome {k : ℕ} {l m : Laid} (hm : From doc (some l) (k + 1) m) (hsource : l.source = .existing k)
    (hlies : Lies doc k l) (hlen : m.len = doc.items[k + 1]!.any.len) (hjoint : Joint doc k) :
    m.mixIn.isSome = fadedInto doc (k + 1) := by
  have hfade := current_crossfade_isSome hjoint hlies.len ((LaidFrom.len hm).symm.trans hlen)
  rw [LaidFrom.mixIn hm, ← hfade, ← hsource]
  rfl

theorem inMedia_iff {k : ℕ} {item : Item} (h : doc.items[k]? = some item) :
    InMedia doc item ↔
      shownIn doc doc.items (currentClip doc doc.items k) = item.any.inFrame ∧
      shownOut doc doc.items (currentClip doc doc.items k) = item.any.outFrame ∧
      item.any.inFrame ≤ item.any.outFrame := by
  obtain ⟨hin, hout⟩ := current_shown h
  unfold InMedia
  rw [hin, hout]
  cases binLength doc item with
  | none =>
    simp only [reduceCtorEq, false_implies, implies_true, and_true, true_and]
    omega
  | some len =>
    simp only [Option.some.injEq, forall_eq']
    omega

/-! ## A cut that is kept is plain -/

section Kept

variable (h : Laying doc (current doc) laid) (hcheck : checkLanes laid = .ok ())
  (hkeeps : ∀ (k : ℕ) (item : Item), doc.items[k]? = some item →
    ∃ l, laid[k]? = some l ∧ Keeps item l)
include h hkeeps

theorem kept_lies {k : ℕ} (hk : k < doc.items.length) : ∃ l, laid[k]? = some l ∧
    From doc (if k = 0 then none else laid[k - 1]?) k l ∧ Keeps doc.items[k]! l ∧ Lies doc k l := by
  have hitem := List.getElem?_eq_getElem hk
  obtain ⟨l, hl, hkeep⟩ := hkeeps k _ hitem
  obtain ⟨l', hl', hfrom⟩ := h.getElem? (current_getElem? hitem)
  rw [hl] at hl'
  obtain rfl := Option.some.inj hl'
  rw [← List.getElem!_of_getElem? hitem] at hkeep
  exact ⟨l, hl, hfrom, hkeep, lies_of_keeps hfrom hkeep⟩

theorem kept_linked {item : Item} (hitem : item ∈ doc.items) : Linked item := by
  obtain ⟨k, hk⟩ := List.mem_iff_getElem?.mp hitem
  obtain ⟨l, -, hkeep⟩ := hkeeps k item hk
  obtain ⟨part, hany⟩ := any_entry item
  intro part' e he
  rw [← (hkeep part' e he).1, (hkeep part _ hany).1]

theorem kept_inMedia {item : Item} (hitem : item ∈ doc.items) : InMedia doc item := by
  obtain ⟨k, hk⟩ := List.mem_iff_getElem?.mp hitem
  obtain ⟨l, -, hfrom, -, hlies⟩ := kept_lies h hkeeps (List.getElem?_eq_some_iff.mp hk).1
  obtain ⟨-, hframes⟩ := Prod.mk.inj hlies.place
  obtain ⟨hin, hout⟩ := Prod.mk.inj hframes
  rw [List.getElem!_of_getElem? hk] at hin hout
  rw [inMedia_iff hk, ← hin, ← hout, ← LaidFrom.inFrame hfrom, ← LaidFrom.outFrame hfrom]
  have hfits := LaidFrom.fits hfrom
  rw [← LaidFrom.inFrame hfrom, ← LaidFrom.outFrame hfrom] at hfits
  exact ⟨rfl, rfl, hfits⟩

theorem kept_joint {k : ℕ} (hk : k + 1 < doc.items.length) : Joint doc k := by
  obtain ⟨l, hl, hfrom, -, hlies⟩ := kept_lies h hkeeps (Nat.lt_of_succ_lt hk)
  obtain ⟨m, hm, hnext, -, hlies'⟩ := kept_lies h hkeeps hk
  rw [if_neg (Nat.succ_ne_zero k), Nat.add_sub_cancel, hl] at hnext
  have hlinked : Linked doc.items[k]! := by
    rw [getElem!_pos doc.items k (Nat.lt_of_succ_lt hk)]
    exact kept_linked h hkeeps (List.getElem_mem _)
  exact (joint_iff hfrom hnext hlies hlinked hlies'.len).mp hlies'.start

theorem kept_lane {k : ℕ} {item : Item} (hitem : doc.items[k]? = some item)
    (huser : inUserMix (itemMixes doc doc.items) (.existing k) = false) {part : Part} {e : Entry}
    (he : item.entry part = some e) : e.lane = plainLane doc k := by
  have hk := (List.getElem?_eq_some_iff.mp hitem).1
  obtain ⟨m, hm, hnext, hkeep, hlies⟩ := kept_lies h hkeeps hk
  rw [List.getElem!_of_getElem? hitem] at hkeep
  rw [← (hkeep part e he).2, From.one_lane hnext huser]
  cases k with
  | zero => exact first_lane hnext huser
  | succ k =>
    obtain ⟨l, hl, hfrom, -, hlies'⟩ := kept_lies h hkeeps (Nat.lt_of_succ_lt hk)
    rw [if_neg (Nat.succ_ne_zero k), Nat.add_sub_cancel, hl] at hnext
    exact next_lane hnext huser hlies'.lane (LaidFrom.lane_le hfrom).1
      (fade_isSome hnext hfrom.source hlies' hlies.len (kept_joint h hkeeps hk))

include hcheck in
theorem kept_apart {j k : ℕ} {a b : Item} (hjk : j < k) (ha : doc.items[j]? = some a)
    (hb : doc.items[k]? = some b) (hlane : laneAt doc j = laneAt doc k) :
    Apart Item.start Item.endFrame a b := by
  obtain ⟨l, hl, -, -, hlies⟩ := kept_lies h hkeeps (List.getElem?_eq_some_iff.mp ha).1
  obtain ⟨m, hm, -, -, hlies'⟩ := kept_lies h hkeeps (List.getElem?_eq_some_iff.mp hb).1
  have hapart := pairwise_iff_getElem?.mp (apart_of_videoLane h hcheck) j k l m hjk hl hm
    (by rw [hlies.lane, hlies'.lane, hlane])
  have ha' := List.getElem!_of_getElem? ha
  have hb' := List.getElem!_of_getElem? hb
  have hlinked := kept_linked h hkeeps (List.mem_of_getElem? ha)
  have hlinked' := kept_linked h hkeeps (List.mem_of_getElem? hb)
  unfold Apart at hapart ⊢
  rw [hlies.start, hlies'.start, hlies.endFrame (by rw [ha']; exact hlinked),
    hlies'.endFrame (by rw [hb']; exact hlinked'), ha', hb'] at hapart
  exact hapart

end Kept

/-! ## A plain cut is kept -/

theorem plain_item (hplain : PlainCut doc) {k : ℕ} (hk : k < doc.items.length) :
    InMedia doc doc.items[k]! ∧ Linked doc.items[k]! := by
  rw [getElem!_pos doc.items k hk]
  exact ⟨hplain.frames _ (List.getElem_mem hk), hplain.linked _ (List.getElem_mem hk)⟩

theorem plain_frames {k : ℕ} (hk : k < doc.items.length) (hframes : InMedia doc doc.items[k]!)
    {before : Option Laid} {l : Laid} (h : From doc before k l) :
    l.inFrame = doc.items[k]!.any.inFrame ∧ l.outFrame = doc.items[k]!.any.outFrame ∧
      l.len = doc.items[k]!.any.len := by
  have hitem : doc.items[k]? = some doc.items[k]! := by
    rw [getElem!_pos doc.items k hk]
    exact List.getElem?_eq_getElem hk
  obtain ⟨hin, hout, -⟩ := (inMedia_iff hitem).mp hframes
  have hfirst := (LaidFrom.inFrame h).trans hin
  have hlast := (LaidFrom.outFrame h).trans hout
  refine ⟨hfirst, hlast, ?_⟩
  unfold Laid.len Entry.len
  rw [hfirst, hlast]

/-- An item at its start, and on its lane if it has no mix of the user, is where it was. -/
theorem plain_keeps (hplain : PlainCut doc) {k : ℕ} (hk : k < doc.items.length)
    {before : Option Laid} {l : Laid} (h : From doc before k l) (hstart : l.start = doc.items[k]!.start)
    (hlane : inUserMix (itemMixes doc doc.items) (.existing k) = false →
      l.videoLane = plainLane doc k) : Lies doc k l ∧ Keeps doc.items[k]! l := by
  have hitem : doc.items[k]? = some doc.items[k]! := by
    rw [getElem!_pos doc.items k hk]
    exact List.getElem?_eq_getElem hk
  obtain ⟨hframes, hlinked⟩ := plain_item hplain hk
  obtain ⟨hin, hout, -⟩ := plain_frames hk hframes h
  have hplace : l.place = doc.items[k]!.any.place := by
    unfold Laid.place Entry.place
    rw [hstart, hin, hout]
    rfl
  have hkeeps : Keeps doc.items[k]! l := by
    intro part e he
    refine ⟨hplace.trans (hlinked part e he).symm, ?_⟩
    cases huser : inUserMix (itemMixes doc doc.items) (.existing k) with
    | true => rw [h.user_lane huser, he]; rfl
    | false =>
      rw [h.one_lane huser, hlane huser]
      exact (hplain.lanes k _ hitem huser part e he).symm
  exact ⟨lies_of_keeps h hkeeps, hkeeps⟩

theorem plain_lies (hplain : PlainCut doc) (h : Laying doc (current doc) laid) {k : ℕ}
    (hk : k < doc.items.length) : ∃ l, laid[k]? = some l ∧
      From doc (if k = 0 then none else laid[k - 1]?) k l ∧ Lies doc k l ∧ Keeps doc.items[k]! l := by
  induction k with
  | zero =>
    obtain ⟨l, hl, hfrom⟩ := h.getElem? (current_getElem? (List.getElem?_eq_getElem hk))
    refine ⟨l, hl, hfrom, plain_keeps hplain hk hfrom ?_ (first_lane hfrom)⟩
    rw [LaidFrom.start hfrom, (currentClip_source doc.items 0).1]
    rfl
  | succ k ih =>
    obtain ⟨l, hl, hbefore, hlies, -⟩ := ih (Nat.lt_of_succ_lt hk)
    obtain ⟨m, hm, hfrom⟩ := h.getElem? (current_getElem? (List.getElem?_eq_getElem hk))
    refine ⟨m, hm, hfrom, ?_⟩
    rw [if_neg (Nat.succ_ne_zero k), Nat.add_sub_cancel, hl] at hfrom
    have hjoint := hplain.joints k hk
    obtain ⟨-, -, hlen⟩ := plain_frames hk (plain_item hplain hk).1 hfrom
    have hlinked := (plain_item hplain (Nat.lt_of_succ_lt hk)).2
    refine plain_keeps hplain hk hfrom ((joint_iff hbefore hfrom hlies hlinked hlen).mpr hjoint) ?_
    intro huser
    exact next_lane hfrom huser hlies.lane (LaidFrom.lane_le hbefore).1
      (fade_isSome hfrom hbefore.source hlies hlen hjoint)

theorem plain_checkLanes (hplain : PlainCut doc) (h : Laying doc (current doc) laid) :
    checkLanes laid = .ok () := by
  have hapart : laid.Pairwise
      (fun l m => l.videoLane = m.videoLane → Apart Laid.start Laid.endFrame l m) := by
    rw [pairwise_iff_getElem?]
    intro j k l m hjk hl hm hlane
    have hlt : ∀ {i : ℕ} {x : Laid}, laid[i]? = some x → i < doc.items.length := by
      intro i x hx
      have := (List.getElem?_eq_some_iff.mp hx).1
      rw [h.length_eq] at this
      simpa [current] using this
    obtain ⟨l', hl', -, hlies, -⟩ := plain_lies hplain h (hlt hl)
    obtain ⟨m', hm', -, hlies', -⟩ := plain_lies hplain h (hlt hm)
    obtain rfl := Option.some.inj (hl.symm.trans hl')
    obtain rfl := Option.some.inj (hm.symm.trans hm')
    have ha := getElem!_pos doc.items j (hlt hl)
    have hb := getElem!_pos doc.items k (hlt hm)
    have hitems := hplain.apart j k _ _ hjk (List.getElem?_eq_getElem (hlt hl))
      (List.getElem?_eq_getElem (hlt hm)) (by rw [← hlies.lane, ← hlies'.lane, hlane])
    rw [← ha, ← hb] at hitems
    unfold Apart at hitems ⊢
    rw [hlies.start, hlies'.start, hlies.endFrame (plain_item hplain (hlt hl)).2,
      hlies'.endFrame (plain_item hplain (hlt hm)).2]
    exact hitems
  refine (checkLanes_ok fun l hl => len_pos h hl).mpr ⟨?_, ?_⟩
  all_goals
    unfold ApartOn
    rw [List.pairwise_filter]
    refine hapart.imp fun {l m} hlm hl hm => hlm ?_
    simp only [decide_eq_true_eq] at hl hm
    rw [hl, hm]

/-! ## What is asked for -/

theorem checkSources_current (items : List Item) (seen : List ℕ) (n m : ℕ) (hlen : n + m ≤ items.length)
    (hseen : ∀ i ∈ seen, i < n) :
    checkSources items seen ((List.range' n m).map (currentClip doc items)) = .ok () := by
  induction m generalizing n seen with
  | zero => rfl
  | succ m ih =>
    rw [List.range'_succ, List.map_cons]
    unfold checkSources
    rw [(currentClip_source items n).1]
    dsimp only
    have hnew : n ∉ seen := fun h => Nat.lt_irrefl n (hseen n h)
    rw [if_neg (by omega), if_neg hnew]
    refine ih (n :: seen) (n + 1) (by omega) fun i hi => ?_
    cases List.mem_cons.mp hi with
    | inl h => omega
    | inr h => exact Nat.lt_succ_of_lt (hseen i h)

theorem positionOf_current {i : ℕ} (h : i < doc.items.length) : positionOf (current doc) i = some i := by
  unfold positionOf
  rw [List.findIdx?_eq_some_iff_getElem]
  have hlen : i < (current doc).length := by simpa [current] using h
  refine ⟨hlen, ?_, ?_⟩
  · simp [current, (currentClip_source doc.items i).1]
  · intro j hj
    have hne : ¬j = i := Nat.ne_of_lt hj
    simp [current, (currentClip_source doc.items j).1, hne]

theorem keepsMix_current {mix : ItemMix} (h : mix ∈ itemMixes doc doc.items) :
    keepsMix doc.items (current doc) mix = true := by
  obtain ⟨b, hpos, hlt, rfl⟩ := mem_itemMixes h
  have hout : ∀ {i : ℕ}, i < doc.items.length →
      (current doc)[i]!.inFrame = none ∧ (current doc)[i]!.outFrame = none := by
    intro i hi
    rw [List.getElem!_of_getElem? (current_getElem? (List.getElem?_eq_getElem hi))]
    exact (currentClip_source doc.items i).2
  have hfirst : b - 1 < doc.items.length := by omega
  unfold keepsMix
  simp only [positionOf_current hlt, positionOf_current hfirst, Option.any_some]
  rw [(hout hfirst).2, (hout hlt).1]
  have hnext : b = b - 1 + 1 := by omega
  simp [← hnext]

theorem current_laid (hplain : PlainCut doc) :
    ∃ laid notes, layout doc doc.items (current doc) = .ok (laid, notes) := by
  refine layout_succeeds ?_ (checkMixes_ok.mpr fun mix => keepsMix_current) ?_
    fun laid h => plain_checkLanes hplain h
  · unfold current
    rw [List.range_eq_range']
    exact checkSources_current doc.items [] 0 doc.items.length (by omega) (by simp)
  · intro p hp
    obtain ⟨k, hk⟩ := List.mem_iff_getElem?.mp hp
    obtain ⟨rfl, item, hitem⟩ := current_of_getElem? hk
    obtain ⟨hin, hout, hle⟩ := (inMedia_iff hitem).mp (hplain.frames item (List.mem_of_getElem? hitem))
    rw [hin, hout]
    exact hle

/-! ## Moves of a cut that is kept -/

section Moves

variable (hlen : laid.length = doc.items.length)
  (hkeeps : ∀ (k : ℕ) (item : Item), doc.items[k]? = some item →
    ∃ l, laid[k]? = some l ∧ l.source = .existing k ∧ Keeps item l)
include hlen hkeeps

theorem newStart_kept {k : ℕ} {item : Item} {l : Laid} (hitem : doc.items[k]? = some item)
    (hl : laid[k]? = some l) : newStart laid k = some l.start := by
  have hfind : laid.reverse.find? (fun l => l.source = .existing k) = some l := by
    cases hfind : laid.reverse.find? (fun l => l.source = .existing k) with
    | none =>
      obtain ⟨l', hl', hsource, -⟩ := hkeeps k item hitem
      have hmem := List.mem_reverse.mpr (List.mem_of_getElem? hl')
      have hnot := List.find?_eq_none.mp hfind l' hmem
      simp [hsource] at hnot
    | some m =>
      have hmem := List.mem_reverse.mp (List.mem_of_find?_eq_some hfind)
      have hsource : m.source = .existing k := by simpa using List.find?_some hfind
      obtain ⟨j, hj⟩ := List.mem_iff_getElem?.mp hmem
      have hlt := (List.getElem?_eq_some_iff.mp hj).1
      rw [hlen] at hlt
      obtain ⟨m', hm', hsource', -⟩ := hkeeps j _ (List.getElem?_eq_getElem hlt)
      obtain rfl := Option.some.inj (hj.symm.trans hm')
      obtain rfl : k = j := Source.existing.inj (hsource.symm.trans hsource')
      rw [← hl, hj]
  unfold newStart
  rw [hfind]
  rfl

/-- Each entry of the main track goes to where it is, and nothing else is moved. -/
theorem mem_moveList (key : ℕ × ℤ) (dest : Option ℤ) :
    (key, dest) ∈ moveList doc laid doc.items ↔ AtEntry doc key ∧ dest = some key.2 := by
  unfold moveList
  rw [List.mem_flatMap]
  have hstart : ∀ {k : ℕ} {item : Item}, doc.items[k]? = some item → ∀ {part : Part} {e : Entry},
      item.entry part = some e → newStart laid k = some e.start := by
    intro k item hitem part e he
    obtain ⟨l, hl, -, hkeep⟩ := hkeeps k item hitem
    rw [newStart_kept hlen hkeeps hitem hl]
    exact congrArg some (Prod.mk.inj (hkeep part e he).1).1
  have hmoves : ∀ {k : ℕ} {item : Item}, doc.items[k]? = some item →
      ((key, dest) ∈ itemMoves doc laid doc.items k ↔
        ∃ part e, item.entry part = some e ∧ key = (doc.mainTrack part, e.start) ∧
          dest = some key.2) := by
    intro k item hitem
    unfold itemMoves
    rw [List.getElem!_of_getElem? hitem, List.mem_append]
    simp only [Option.mem_toList, Option.map_eq_some_iff, Prod.mk.injEq]
    constructor
    · rintro (⟨e, he, rfl, rfl⟩ | ⟨e, he, rfl, rfl⟩)
      · exact ⟨.video, e, he, rfl, @hstart _ _ hitem .video _ he⟩
      · exact ⟨.audio, e, he, rfl, @hstart _ _ hitem .audio _ he⟩
    · rintro ⟨part, e, he, rfl, rfl⟩
      have hdest := hstart hitem he
      cases part with
      | video => exact Or.inl ⟨e, he, rfl, hdest⟩
      | audio => exact Or.inr ⟨e, he, rfl, hdest⟩
  constructor
  · rintro ⟨k, hk, hmem⟩
    have hitem := List.getElem?_eq_getElem (List.mem_range.mp hk)
    obtain ⟨part, e, he, hkey, hdest⟩ := (hmoves hitem).mp hmem
    exact ⟨⟨_, List.mem_of_getElem? hitem, part, e, he, hkey⟩, hdest⟩
  · rintro ⟨⟨item, hmem, part, e, he, hkey⟩, hdest⟩
    obtain ⟨k, hk⟩ := List.mem_iff_getElem?.mp hmem
    exact ⟨k, List.mem_range.mpr (List.getElem?_eq_some_iff.mp hk).1,
      (hmoves hk).mpr ⟨part, e, he, hkey, hdest⟩⟩

theorem stayAll_kept : StayAll (moves doc laid doc.items) := by
  intro t p dest h
  obtain ⟨⟨key, dest'⟩, hfind, hdest⟩ := Option.map_eq_some_iff.mp h
  have hmem := List.mem_reverse.mp (List.mem_of_find?_eq_some hfind)
  have hkey : key = (t, p) := by simpa using List.find?_some hfind
  obtain ⟨-, hself⟩ := (mem_moveList hlen hkeeps key dest').mp hmem
  rw [← hdest, hself, hkey]

theorem named_kept : Named (moves doc laid doc.items) = AtEntry doc := by
  funext key
  refine propext ⟨?_, ?_⟩
  · intro h
    obtain ⟨dest, hmove⟩ := Option.isSome_iff_exists.mp h
    obtain ⟨⟨key', dest'⟩, hfind, -⟩ := Option.map_eq_some_iff.mp hmove
    have hmem := List.mem_reverse.mp (List.mem_of_find?_eq_some hfind)
    have hkey : key' = key := by simpa using List.find?_some hfind
    rw [← hkey]
    exact ((mem_moveList hlen hkeeps key' dest').mp hmem).1
  · intro h
    have hmem := (mem_moveList hlen hkeeps key (some key.2)).mpr ⟨h, rfl⟩
    unfold Named moves
    rw [Option.isSome_map, List.find?_isSome]
    exact ⟨_, List.mem_reverse.mpr hmem, by simp⟩

end Moves

/-! ## Lanes of a cut that is kept -/

/-- An item and the clip it is laid as. -/
def Aligned (doc : Doc) (item : Item) (l : Laid) : Prop :=
  item ∈ doc.items ∧ (∀ part, entryOn doc doc.items l.source part = (item.entry part).map some) ∧
    Keeps item l

theorem wantedLane_aligned (texts : Texts) {items : List Item} {laid : List Laid}
    (h : List.Forall₂ (Aligned doc) items laid) (part : Part) (lane : ℕ) :
    (wantedLane doc doc.items texts laid part lane).map (fun w => (w.node, w.place)) =
      ((items.filterMap (fun i => i.entry part)).filter (fun e => e.lane = lane)).map
        (fun e => (some e.node.index, e.place)) := by
  induction h with
  | nil => rfl
  | @cons item l items laid hfirst _ ih =>
    obtain ⟨hmem, hentry, hkeep⟩ := hfirst
    unfold wantedLane at ih ⊢
    cases he : item.entry part with
    | none =>
      have hclip : wantedClip doc doc.items texts part l = none := by
        unfold wantedClip
        rw [hentry part, he]
        rfl
      have hitems : (item :: items).filterMap (fun i => i.entry part) =
          items.filterMap (fun i => i.entry part) := List.filterMap_cons_none he
      rw [hitems, ← ih, List.filter_cons]
      split
      · rw [List.filterMap_cons_none hclip]
      · rfl
    | some e =>
      obtain ⟨hplace, hlane⟩ := hkeep part e he
      have hle : e.lane ≤ 1 := by
        have := items_lane hmem part
        rwa [he] at this
      have hmin : min (l.lane part) 1 = e.lane := by omega
      have hitems : (item :: items).filterMap (fun i => i.entry part) =
          e :: items.filterMap (fun i => i.entry part) := List.filterMap_cons_some he
      rw [hitems, List.filter_cons, List.filter_cons, hmin]
      split
      · have hclip : wantedClip doc doc.items texts part l = some
            { start := l.start
              len := l.len
              text := entryText doc texts l part (some e)
              node := some e.node.index
              inFrame := l.inFrame
              outFrame := l.outFrame } := by
          unfold wantedClip
          rw [hentry part, he]
          rfl
        rw [List.filterMap_cons_some hclip, List.map_cons, List.map_cons, ih, ← hplace]
        rfl
      · exact ih

theorem keepsLane_kept (texts : Texts) (hlen : laid.length = doc.items.length)
    (hkeeps : ∀ (k : ℕ) (item : Item), doc.items[k]? = some item →
      ∃ l, laid[k]? = some l ∧ l.source = .existing k ∧ Keeps item l)
    (part : Part) (lane : ℕ) (hlane : lane < 2) : KeepsLane doc laid texts part lane := by
  have haligned : List.Forall₂ (Aligned doc) doc.items laid := by
    refine List.forall₂_iff_get.mpr ⟨hlen.symm, fun k hk hk' => ?_⟩
    have hitem := List.getElem?_eq_getElem hk
    obtain ⟨l, hl, hsource, hkeep⟩ := hkeeps k _ hitem
    obtain rfl : laid[k] = l := Option.some.inj ((List.getElem?_eq_getElem hk').symm.trans hl)
    refine ⟨List.getElem_mem hk, fun part => ?_, hkeep⟩
    show entryOn doc doc.items laid[k].source part = _
    rw [hsource]
    show (doc.items[k]!.entry part).map some = _
    rw [getElem!_pos doc.items k hk]
    rfl
  unfold KeepsLane
  rw [wantedLane_aligned texts haligned, ← laneEntries_filter part lane hlane]
  exact ((items_entries part).filter _).map _

/-! ## No change -/

/-- An `<entry>` from the first frame to a time. -/
def entryTo (index : ℕ) (outTime : String) : Element :=
  ⟨index, some "00:00:00.000", some outTime, some s!"chain{index}", some "4", [], ""⟩

/-- One clip whose sound runs on for twenty frames after its picture. -/
def soundRunsOn : Doc where
  fps := Rate.pal.fps Rate.pal_lt
  chains := []
  bin := [⟨"4", 500⟩]
  groups := .array []
  track := fun part =>
    match part with
    | .video => ⟨[.entry (entryTo 0 "00:00:03.960")], [], []⟩
    | .audio => ⟨[.entry (entryTo 1 "00:00:04.760")], [], []⟩
  mainVideo := 2
  mainAudio := 1
  audio_before_video := Nat.one_lt_two

end Haruspex.Kdenlive
