import Mathlib.Data.List.Perm.Basic
import Haruspex.Kdenlive.Playlists
import Mathlib.Algebra.BigOperators.Intervals
import Mathlib.Tactic.Abel
import Haruspex.Kdenlive.Laying

/-! The main track's items hold each of its entries once, and its lanes are two. -/
namespace Haruspex.Kdenlive
set_option autoImplicit false

variable {doc : Doc}

/-! ## Entries of the two lanes -/

theorem entries_lane {playlist : List Clip} {lane : ℕ} {e : Entry}
    (h : e ∈ doc.entries playlist lane) : e.lane = lane := by
  obtain ⟨u, hu⟩ := mem_entriesFrom h
  rw [hu]
  rfl

/-- Every entry of a part, lane by lane. -/
def laneEntries (doc : Doc) (part : Part) : List Entry :=
  doc.entries (doc.track part).playlistA 0 ++ doc.entries (doc.track part).playlistB 1

theorem trackEntries_perm (part : Part) :
    (doc.trackEntries (doc.track part)).Perm (laneEntries doc part) :=
  List.perm_insertionSort _ _

theorem laneEntries_filter (part : Part) (lane : ℕ) (hlane : lane < 2) :
    (laneEntries doc part).filter (fun e => e.lane = lane) =
      doc.entries ((doc.track part).playlist lane) lane := by
  have hA : ∀ e ∈ doc.entries (doc.track part).playlistA 0, e.lane = 0 := fun e => entries_lane
  have hB : ∀ e ∈ doc.entries (doc.track part).playlistB 1, e.lane = 1 := fun e => entries_lane
  unfold laneEntries
  rw [List.filter_append]
  obtain rfl | rfl : lane = 0 ∨ lane = 1 := by omega
  · rw [List.filter_eq_self.mpr (by simpa using hA),
      List.filter_eq_nil_iff.mpr (by intro e he; simp [hB e he]), List.append_nil]
    rfl
  · rw [List.filter_eq_nil_iff.mpr (by intro e he; simp [hA e he]),
      List.filter_eq_self.mpr (by simpa using hB), List.nil_append]
    rfl

theorem laneEntries_lane {part : Part} {e : Entry} (h : e ∈ laneEntries doc part) : e.lane ≤ 1 := by
  cases List.mem_append.mp h with
  | inl h => rw [entries_lane h]; omega
  | inr h => rw [entries_lane h]

/-! ## Items -/

theorem pairUp_video (pairs : List (ℤ × ℤ)) (video audio : List Entry) :
    (Doc.pairUp pairs video audio).filterMap Item.video = video := by
  induction video generalizing audio with
  | nil => simp [Doc.pairUp, List.filterMap_map, Function.comp_def, Item.ofAudio]
  | cons v rest ih =>
    unfold Doc.pairUp
    split <;> simp [ih, Item.ofVideo]

theorem partner_lt {pairs : List (ℤ × ℤ)} {v : Entry} {audio : List Entry} {i : ℕ}
    (h : Doc.partner pairs v audio = some i) : i < audio.length := by
  unfold Doc.partner at h
  cases Option.or_eq_some_iff.mp h with
  | inl h => exact (List.findIdx?_eq_some_iff_getElem.mp h).1
  | inr h => exact (List.findIdx?_eq_some_iff_getElem.mp h.2).1

theorem pairUp_audio (pairs : List (ℤ × ℤ)) (video audio : List Entry) :
    ((Doc.pairUp pairs video audio).filterMap Item.audio).Perm audio := by
  induction video generalizing audio with
  | nil => simp [Doc.pairUp, List.filterMap_map, Function.comp_def, Item.ofAudio]
  | cons v rest ih =>
    unfold Doc.pairUp
    split
    · rename_i i hpartner
      have hlt := partner_lt hpartner
      have hsome : audio[i]? = some audio[i] := List.getElem?_eq_getElem hlt
      simp only [List.filterMap_cons, Item.ofVideo, hsome]
      exact ((ih (audio.eraseIdx i)).cons audio[i]).trans (List.getElem_cons_eraseIdx_perm hlt)
    · exact ih audio

/-- The items hold every entry of the main track, once. -/
theorem items_entries (part : Part) :
    (doc.items.filterMap (fun i => i.entry part)).Perm (laneEntries doc part) := by
  have hsort := (List.perm_insertionSort (fun i j : Item => i.start ≤ j.start)
    (Doc.pairUp (avPairs doc.groups doc.mainVideo doc.mainAudio)
      (doc.trackEntries (doc.track .video)) (doc.trackEntries (doc.track .audio)))).filterMap
    (fun i => i.entry part)
  cases part with
  | video => exact (hsort.trans (List.Perm.of_eq (pairUp_video _ _ _))).trans (trackEntries_perm .video)
  | audio => exact (hsort.trans (pairUp_audio _ _ _)).trans (trackEntries_perm .audio)

theorem items_lane {item : Item} (h : item ∈ doc.items) (part : Part) :
    laneOf (item.entry part) ≤ 1 := by
  cases hentry : item.entry part with
  | none => exact Nat.zero_le 1
  | some e =>
    have hmem : e ∈ doc.items.filterMap (fun i => i.entry part) :=
      List.mem_filterMap.mpr ⟨item, h, hentry⟩
    exact laneEntries_lane ((items_entries part).mem_iff.mp hmem)

theorem getElem!_lane (i : ℕ) (part : Part) : laneOf (doc.items[i]!.entry part) ≤ 1 := by
  by_cases h : i < doc.items.length
  · rw [getElem!_pos doc.items i h]
    exact items_lane (List.getElem_mem h) part
  · rw [getElem!_neg doc.items i h]
    cases part <;> exact Nat.zero_le 1

theorem defaults_lane (source : Source) :
    (defaults doc doc.items source).videoLane ≤ 1 ∧ (defaults doc doc.items source).audioLane ≤ 1 := by
  cases source with
  | existing i => exact ⟨getElem!_lane i .video, getElem!_lane i .audio⟩
  | piece i => exact ⟨getElem!_lane i .video, getElem!_lane i .audio⟩
  | new m => exact ⟨Nat.zero_le 1, Nat.zero_le 1⟩

end Haruspex.Kdenlive

/-! A laid-out main track is a timeline: when the starts a layout counts up, the lanes it chooses and the
playlists it writes are those of clips that follow each other. -/
namespace Haruspex.Kdenlive
open Spans
set_option autoImplicit false

variable (doc : Doc) (wanted : List Placement) (texts : Texts) (laid : List Laid)

/-! ## What a timeline is -/

/-- Whether a clip has an entry on a track. -/
def hasEntry (source : Source) (part : Part) : Bool := (entryOn doc doc.items source part).isSome

/-- The clips on a track. -/
def onTrack (part : Part) : List Laid := laid.filter (fun l => hasEntry doc l.source part)

/-- Frames two clips share. -/
def shared (l m : Laid) : ℤ := min l.endFrame m.endFrame - max l.start m.start

structure ValidTimeline : Prop where
  frames : ∀ l ∈ laid, 0 ≤ l.inFrame ∧ l.inFrame ≤ l.outFrame
  starts : ∀ l ∈ laid, 0 ≤ l.start
  order : laid.IsChain (fun l m => l.start ≤ m.start)
  apart : ∀ part, (onTrack doc laid part).Pairwise
    (fun l m => l.lane part = m.lane part → Apart Laid.start Laid.endFrame l m)
  crossfades : laid.IsChain (fun l m => ∀ d, m.mixIn = some d → shared l m = d ∧
    ∀ part, hasEntry doc l.source part → hasEntry doc m.source part → l.lane part ≠ m.lane part)

/-- The playlists that are written give each clip the place it is laid at. -/
def PlaylistsReadBack : Prop :=
  ∀ part lane, lane < 2 →
    (doc.entries (rewritePlaylist doc ((doc.track part).playlist lane) lane
      (wantedLane doc doc.items texts laid part lane)) lane).map Entry.place =
    ((onTrack doc laid part).filter (fun l => l.lane part = lane)).map Laid.place

/-! ## When a layout is one -/

/-- The mix of the user between two placements. -/
def mixOf (p q : Placement) : Option ItemMix :=
  mixBetween (itemMixes doc doc.items) p.source q.source

/-- Frames between a placement and the next: what a mix makes them overlap counts below none. -/
def gapBetween (p q : Placement) : ℤ :=
  gapAfter doc.items (itemMixes doc doc.items) p.source
    (crossfade doc doc.items (itemMixes doc doc.items) p.source (length doc doc.items p) q).1 q.source

/-- Frames between two placements: the clips in between and all the gaps. -/
def distance (j k : ℕ) : ℤ :=
  ∑ i ∈ Finset.Ico j k, gapBetween doc wanted[i]! wanted[i + 1]! +
    ∑ i ∈ Finset.Ico (j + 1) k, length doc doc.items wanted[i]!

/-- The sound of two clips that overlap is on different lanes: a clip with a mix of the user keeps the
lanes it has, the lanes of any other are the same for picture and sound. -/
def soundLanesDiffer (p q : Source) : Prop :=
  let d := defaults doc doc.items p
  let e := defaults doc doc.items q
  match inUserMix (itemMixes doc doc.items) p, inUserMix (itemMixes doc doc.items) q with
  | true, true => d.audioLane ≠ e.audioLane
  | true, false => d.audioLane = d.videoLane
  | false, true => e.audioLane = e.videoLane
  | false, false => True

/-- An entry without a time of its own says the first frame, or one frame. -/
def saysTimes (p : Placement) (c : Element) : Prop :=
  (c.inTime = none → shownIn doc doc.items p = 0) ∧
    (c.outTime = none → shownOut doc doc.items p = shownIn doc doc.items p)

structure HoldsTogether : Prop where
  /-- The track does not begin before its first frame. -/
  first : ∀ p ∈ wanted.head?, p.source = .existing 0 → 0 ≤ doc.items[0]!.start
  /-- The first clip of a mix of the user is as long as the mix. -/
  mixes : ∀ (k : ℕ) (p q : Placement), wanted[k]? = some p → wanted[k + 1]? = some q →
    ∀ mix, mixOf doc p q = some mix → mix.frames ≤ length doc doc.items p
  sound : ∀ (j k : ℕ) (p q : Placement), j < k → wanted[j]? = some p → wanted[k]? = some q →
    hasEntry doc p.source .audio → hasEntry doc q.source .audio →
    soundLanesDiffer doc p.source q.source ∨ 0 ≤ distance doc wanted j k
  times : ∀ p ∈ wanted, ∀ part e, entryOn doc doc.items p.source part = some (some e) →
    saysTimes doc p e.node

variable {doc wanted texts laid}

/-! ## From one clip to the next -/

theorem LaysOut.next {items : List Item} {mixes : List ItemMix} {prev : Option Laid}
    (h : LaysOut doc items mixes prev wanted laid) {k : ℕ} {l m : Laid} (hl : laid[k]? = some l)
    (hm : laid[k + 1]? = some m) : ∃ p q before, wanted[k]? = some p ∧ wanted[k + 1]? = some q ∧
      LaidFrom doc items mixes before p l ∧ LaidFrom doc items mixes (some l) q m := by
  obtain ⟨p, hp, hfrom⟩ := h.placement hl
  obtain ⟨q, hq, hnext⟩ := h.placement hm
  refine ⟨p, q, _, hp, hq, hfrom, ?_⟩
  have hbefore : laid[k + 1 - 1]? = some l := hl
  rw [if_neg (Nat.succ_ne_zero k), hbefore] at hnext
  exact hnext

/-- A crossfade is half the shorter clip at most. -/
theorem crossfade_some {items : List Item} {mixes : List ItemMix} {prev : Source} {len d : ℤ}
    {q : Placement} (h : (crossfade doc items mixes prev len q).1 = some d) :
    0 < d ∧ 2 * d ≤ len ∧ 2 * d ≤ length doc items q ∧ mixBetween mixes prev q.source = none := by
  unfold crossfade at h
  split at h
  · rename_i want hwant
    split at h
    · cases h
    · rename_i hmix
      dsimp only at h
      obtain ⟨hd, hpos⟩ := Option.filter_eq_some_iff.mp h
      have hmin : min want (min len (length doc items q) / 2) = d := Option.some.inj hd
      have hpos : 0 < d := by simpa using hpos
      refine ⟨hpos, ?_, ?_, Option.not_isSome_iff_eq_none.mp hmix⟩ <;> omega
  · cases h

theorem crossfade_of_mix {items : List Item} {mixes : List ItemMix} {prev : Source} {len : ℤ}
    {q : Placement} {mix : ItemMix} (h : mixBetween mixes prev q.source = some mix) :
    (crossfade doc items mixes prev len q).1 = none := by
  unfold crossfade
  split
  · rw [h]
    rfl
  · rfl

theorem gapBetween_of_mix {p q : Placement} {mix : ItemMix} (h : mixOf doc p q = some mix) :
    gapBetween doc p q = -mix.frames := by
  have hfade : (crossfade doc doc.items (itemMixes doc doc.items) p.source
      (length doc doc.items p) q).1 = none := crossfade_of_mix h
  unfold gapBetween gapAfter
  unfold mixOf at h
  rw [hfade]
  cases hsource : q.source with
  | existing i => rw [hsource] at h; simp [h]
  | piece i => rw [hsource] at h; cases hp : p.source <;> simp [hp, mixBetween] at h
  | new m => rw [hsource] at h; cases hp : p.source <;> simp [hp, mixBetween] at h

/-- Without a mix of the user a clip reaches into the one before by half of it at most. -/
theorem gapBetween_of_no_mix {p q : Placement} (h : mixOf doc p q = none)
    (hpos : 0 < length doc doc.items p) : 0 ≤ length doc doc.items p + gapBetween doc p q := by
  unfold gapBetween gapAfter
  unfold mixOf at h
  split
  · rename_i d hd
    obtain ⟨-, hhalf, -, -⟩ := crossfade_some hd
    omega
  · rename_i i hnone hsource
    rw [hsource] at h
    rw [hsource, h]
    dsimp only
    split <;> omega
  · omega
  · omega

theorem start_next {p q : Placement} {l m : Laid} {before : Option Laid}
    (hl : LaidFrom doc doc.items (itemMixes doc doc.items) before p l)
    (hm : LaidFrom doc doc.items (itemMixes doc doc.items) (some l) q m) :
    m.start = l.endFrame + gapBetween doc p q := by
  rw [hm.start, hm.mixIn]
  show l.endFrame + gapAfter doc.items (itemMixes doc doc.items) l.source
    (crossfade doc doc.items (itemMixes doc doc.items) l.source l.len q).1 q.source = _
  rw [hl.source, hl.len]
  rfl

/-- A clip starts where the one before does or later, unless a mix of the user is longer than that. -/
theorem start_le_next_iff {p q : Placement} {l m : Laid} {before : Option Laid}
    (hl : LaidFrom doc doc.items (itemMixes doc doc.items) before p l)
    (hm : LaidFrom doc doc.items (itemMixes doc doc.items) (some l) q m) :
    l.start ≤ m.start ↔ ∀ mix, mixOf doc p q = some mix → mix.frames ≤ length doc doc.items p := by
  have hnext := start_next hl hm
  have hlen := hl.len
  have hpos := hl.len_pos
  unfold Laid.endFrame at hnext
  cases hmix : mixOf doc p q with
  | none =>
    have hgap := gapBetween_of_no_mix hmix (by omega)
    constructor
    · nofun
    · intro
      omega
  | some mix =>
    have hgap := gapBetween_of_mix hmix
    constructor
    · intro hle other hother
      obtain rfl := Option.some.inj hother
      omega
    · intro h
      have := h mix rfl
      omega

/-! ## Over the whole track -/

/-- The clips of a document laid out as wanted. -/
abbrev Laying (doc : Doc) (wanted : List Placement) (laid : List Laid) : Prop :=
  LaysOut doc doc.items (itemMixes doc doc.items) none wanted laid

theorem order_iff (h : Laying doc wanted laid) :
    laid.IsChain (fun l m => l.start ≤ m.start) ↔
      ∀ (k : ℕ) (p q : Placement), wanted[k]? = some p → wanted[k + 1]? = some q →
        ∀ mix, mixOf doc p q = some mix → mix.frames ≤ length doc doc.items p := by
  rw [isChain_iff_getElem?]
  constructor
  · intro horder k p q hp hq
    obtain ⟨l, hl, -⟩ := h.getElem? hp
    obtain ⟨m, hm, -⟩ := h.getElem? hq
    obtain ⟨p', q', before, hp', hq', hfrom, hnext⟩ := h.next hl hm
    obtain rfl := Option.some.inj (hp.symm.trans hp')
    obtain rfl := Option.some.inj (hq.symm.trans hq')
    exact (start_le_next_iff hfrom hnext).mp (horder k l m hl hm)
  · intro hmixes k l m hl hm
    obtain ⟨p, q, before, hp, hq, hfrom, hnext⟩ := h.next hl hm
    exact (start_le_next_iff hfrom hnext).mpr (hmixes k p q hp hq)

theorem starts_iff (h : Laying doc wanted laid) (horder : laid.IsChain (fun l m => l.start ≤ m.start)) :
    (∀ l ∈ laid, 0 ≤ l.start) ↔
      ∀ p ∈ wanted.head?, p.source = .existing 0 → 0 ≤ doc.items[0]!.start := by
  cases h with
  | nil => simp
  | cons first rest =>
    rename_i p l wanted laid
    have hstart : l.start = if p.source = .existing 0 then doc.items[0]!.start else 0 := first.start
    constructor
    · intro hstarts p' hp' hsource
      obtain rfl := Option.some.inj hp'
      rw [if_pos hsource] at hstart
      rw [← hstart]
      exact hstarts l List.mem_cons_self
    · intro hfirst
      have hl : 0 ≤ l.start := by
        rw [hstart]
        split
        · rename_i hsource
          exact hfirst p rfl hsource
        · exact le_rfl
      intro m hm
      have htrans : IsTrans Laid (fun l m => l.start ≤ m.start) := ⟨fun _ _ _ => le_trans⟩
      have hpairs := List.isChain_iff_pairwise.mp horder
      cases List.mem_cons.mp hm with
      | inl heq => rwa [heq]
      | inr hrest => exact hl.trans ((List.pairwise_cons.mp hpairs).1 m hrest)

theorem distance_succ {j k : ℕ} (h : j < k) : distance doc wanted j (k + 1) =
    distance doc wanted j k + length doc doc.items wanted[k]! +
      gapBetween doc wanted[k]! wanted[k + 1]! := by
  unfold distance
  rw [Finset.sum_Ico_succ_top h.le, Finset.sum_Ico_succ_top (Nat.succ_le_of_lt h)]
  abel

/-- Where a later clip starts. -/
theorem start_distance (h : Laying doc wanted laid) {j k : ℕ} {l m : Laid} (hjk : j < k)
    (hl : laid[j]? = some l) (hm : laid[k]? = some m) :
    m.start = l.endFrame + distance doc wanted j k := by
  induction k, hjk using Nat.le_induction generalizing m with
  | base =>
    obtain ⟨p, q, before, hp, hq, hfrom, hnext⟩ := h.next hl hm
    rw [start_next hfrom hnext]
    unfold distance
    rw [Nat.Ico_succ_singleton, Finset.sum_singleton, Finset.Ico_self, Finset.sum_empty, add_zero,
      List.getElem!_of_getElem? hp, List.getElem!_of_getElem? hq]
  | succ k hjk ih =>
    have hk : k < laid.length := by
      have := (List.getElem?_eq_some_iff.mp hm).1
      omega
    have hx : laid[k]? = some laid[k] := List.getElem?_eq_getElem hk
    obtain ⟨p, q, before, hp, hq, hfrom, hnext⟩ := h.next hx hm
    rw [start_next hfrom hnext, distance_succ hjk, List.getElem!_of_getElem? hp,
      List.getElem!_of_getElem? hq]
    unfold Laid.endFrame at ih ⊢
    rw [ih hx, hfrom.len]
    omega

/-! ## Lanes -/

theorem LaidFrom.lane_le {before : Option Laid} {p : Placement} {l : Laid}
    (h : LaidFrom doc doc.items (itemMixes doc doc.items) before p l) :
    l.videoLane ≤ 1 ∧ l.audioLane ≤ 1 := by
  have hlanes := h.lanes
  have hdefaults := @defaults_lane doc p.source
  unfold lanesFor at hlanes
  split at hlanes
  · obtain ⟨hvideo, haudio⟩ := Prod.mk.inj hlanes
    omega
  · split at hlanes
    all_goals
      obtain ⟨hvideo, haudio⟩ := Prod.mk.inj hlanes
      omega

/-- A clip with a mix of the user keeps its lanes. -/
theorem LaidFrom.user_lanes {items : List Item} {mixes : List ItemMix} {before : Option Laid}
    {p : Placement} {l : Laid} (h : LaidFrom doc items mixes before p l)
    (huser : inUserMix mixes p.source = true) :
    l.videoLane = (defaults doc items p.source).videoLane ∧
      l.audioLane = (defaults doc items p.source).audioLane := by
  have hlanes := h.lanes
  unfold lanesFor at hlanes
  rw [if_pos huser] at hlanes
  exact Prod.mk.inj hlanes

/-- Any other clip has picture and sound on one lane. -/
theorem LaidFrom.same_lanes {items : List Item} {mixes : List ItemMix} {before : Option Laid}
    {p : Placement} {l : Laid} (h : LaidFrom doc items mixes before p l)
    (huser : inUserMix mixes p.source = false) : l.audioLane = l.videoLane := by
  have hlanes := h.lanes
  unfold lanesFor at hlanes
  rw [huser] at hlanes
  simp only [Bool.false_eq_true, if_false] at hlanes
  split at hlanes
  all_goals
    obtain ⟨hvideo, haudio⟩ := Prod.mk.inj hlanes
    omega

theorem soundLanesDiffer_iff {before before' : Option Laid} {p q : Placement} {l m : Laid}
    (hl : LaidFrom doc doc.items (itemMixes doc doc.items) before p l)
    (hm : LaidFrom doc doc.items (itemMixes doc doc.items) before' q m)
    (hvideo : l.videoLane ≠ m.videoLane) :
    soundLanesDiffer doc p.source q.source ↔ l.audioLane ≠ m.audioLane := by
  have hle := hl.lane_le
  have hme := hm.lane_le
  unfold soundLanesDiffer
  cases hp : inUserMix (itemMixes doc doc.items) p.source with
  | true =>
    obtain ⟨hlv, hla⟩ := hl.user_lanes hp
    cases hq : inUserMix (itemMixes doc doc.items) q.source with
    | true =>
      obtain ⟨-, hma⟩ := hm.user_lanes hq
      dsimp only
      rw [hla, hma]
    | false =>
      have hsame := hm.same_lanes hq
      dsimp only
      omega
  | false =>
    have hsame := hl.same_lanes hp
    cases hq : inUserMix (itemMixes doc doc.items) q.source with
    | true =>
      obtain ⟨hmv, hma⟩ := hm.user_lanes hq
      dsimp only
      omega
    | false =>
      have hsame' := hm.same_lanes hq
      exact iff_of_true trivial (by omega)

theorem len_pos (h : Laying doc wanted laid) {l : Laid} (hl : l ∈ laid) : 0 < l.len := by
  obtain ⟨k, hk⟩ := List.mem_iff_getElem?.mp hl
  obtain ⟨p, -, hfrom⟩ := h.placement hk
  exact hfrom.len_pos

/-- The check of the lanes keeps clips with pictures on one lane apart. -/
theorem apart_of_videoLane (h : Laying doc wanted laid) (hcheck : checkLanes laid = .ok ()) :
    laid.Pairwise (fun l m => l.videoLane = m.videoLane → Apart Laid.start Laid.endFrame l m) := by
  obtain ⟨hzero, hone⟩ := (checkLanes_ok fun l hl => len_pos h hl).mp hcheck
  unfold ApartOn at hzero hone
  rw [List.pairwise_filter] at hzero hone
  refine (hzero.and hone).imp_of_mem fun {l m} hl hm hboth hlane => ?_
  obtain ⟨k, hk⟩ := List.mem_iff_getElem?.mp hl
  obtain ⟨p, -, hfrom⟩ := h.placement hk
  have hle := hfrom.lane_le.1
  obtain hzero | hone : l.videoLane = 0 ∨ l.videoLane = 1 := by omega
  · exact hboth.1 (by simpa using hzero) (by simp [← hlane, hzero])
  · exact hboth.2 (by simpa using hone) (by simp [← hlane, hone])

theorem apart_iff_distance (h : Laying doc wanted laid)
    (horder : laid.IsChain (fun l m => l.start ≤ m.start)) {j k : ℕ} {l m : Laid} (hjk : j < k)
    (hl : laid[j]? = some l) (hm : laid[k]? = some m) :
    Apart Laid.start Laid.endFrame l m ↔ 0 ≤ distance doc wanted j k := by
  have hstart := start_distance h hjk hl hm
  have htrans : IsTrans Laid (fun l m => l.start ≤ m.start) := ⟨fun _ _ _ => le_trans⟩
  have hle : l.start ≤ m.start :=
    pairwise_iff_getElem?.mp (List.isChain_iff_pairwise.mp horder) j k l m hjk hl hm
  have hpos : 0 < m.len := len_pos h (List.mem_of_getElem? hm)
  constructor
  · intro hapart
    have := hapart.before hle (by unfold Laid.endFrame; omega)
    omega
  · intro hdistance
    exact Or.inl (by omega)

theorem onTrack_pairwise {part : Part} {R : Laid → Laid → Prop} :
    (onTrack doc laid part).Pairwise R ↔
      ∀ (j k : ℕ) (l m : Laid), j < k → laid[j]? = some l → laid[k]? = some m →
        hasEntry doc l.source part → hasEntry doc m.source part → R l m := by
  unfold onTrack
  rw [List.pairwise_filter, pairwise_iff_getElem?]

theorem apart_audio_iff (h : Laying doc wanted laid) (hcheck : checkLanes laid = .ok ())
    (horder : laid.IsChain (fun l m => l.start ≤ m.start)) :
    (onTrack doc laid .audio).Pairwise
      (fun l m => l.lane .audio = m.lane .audio → Apart Laid.start Laid.endFrame l m) ↔
      ∀ (j k : ℕ) (p q : Placement), j < k → wanted[j]? = some p → wanted[k]? = some q →
        hasEntry doc p.source .audio → hasEntry doc q.source .audio →
        soundLanesDiffer doc p.source q.source ∨ 0 ≤ distance doc wanted j k := by
  have hpicture := pairwise_iff_getElem?.mp (apart_of_videoLane h hcheck)
  rw [onTrack_pairwise]
  constructor
  · intro hapart j k p q hjk hp hq hpsound hqsound
    obtain ⟨l, hl, hfrom⟩ := h.getElem? hp
    obtain ⟨m, hm, hfrom'⟩ := h.getElem? hq
    rw [← apart_iff_distance h horder hjk hl hm]
    by_cases hvideo : l.videoLane = m.videoLane
    · exact Or.inr (hpicture j k l m hjk hl hm hvideo)
    · rw [soundLanesDiffer_iff hfrom hfrom' hvideo]
      by_cases haudio : l.audioLane = m.audioLane
      · rw [← hfrom.source] at hpsound
        rw [← hfrom'.source] at hqsound
        exact Or.inr (hapart j k l m hjk hl hm hpsound hqsound haudio)
      · exact Or.inl haudio
  · intro hsound j k l m hjk hl hm hlsound hmsound haudio
    obtain ⟨p, hp, hfrom⟩ := h.placement hl
    obtain ⟨q, hq, hfrom'⟩ := h.placement hm
    rw [hfrom.source] at hlsound
    rw [hfrom'.source] at hmsound
    by_cases hvideo : l.videoLane = m.videoLane
    · exact hpicture j k l m hjk hl hm hvideo
    · cases hsound j k p q hjk hp hq hlsound hmsound with
      | inl hdiffer => exact absurd haudio ((soundLanesDiffer_iff hfrom hfrom' hvideo).mp hdiffer)
      | inr hdistance => exact (apart_iff_distance h horder hjk hl hm).mpr hdistance

end Haruspex.Kdenlive
