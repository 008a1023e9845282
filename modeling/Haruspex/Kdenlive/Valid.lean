import Haruspex.Kdenlive.Timecode
import Haruspex.Kdenlive.Timeline

/-! When a laid-out main track is a valid timeline, and its playlists read back as laid. -/
namespace Haruspex.Kdenlive
open Spans
set_option autoImplicit false

variable {doc : Doc} {wanted : List Placement} {texts : Texts} {laid : List Laid}

/-! ## Crossfades -/

theorem crossfade_shared {items : List Item} {mixes : List ItemMix} {before : Option Laid}
    {p q : Placement} {l m : Laid} (hl : LaidFrom doc items mixes before p l)
    (hm : LaidFrom doc items mixes (some l) q m) {d : ℤ} (hd : m.mixIn = some d) :
    shared l m = d ∧ ¬Apart Laid.start Laid.endFrame l m := by
  have hfade : (crossfade doc items mixes l.source l.len q).1 = some d := by
    rw [← hd, hm.mixIn]
    rfl
  obtain ⟨hpos, hhalf, hhalf', -⟩ := crossfade_some hfade
  have hstart : m.start = l.endFrame + -d := by
    rw [hm.start, hd]
    rfl
  have hlen := hm.len
  unfold shared Apart Laid.endFrame at *
  omega

theorem crossfades_hold (h : Laying doc wanted laid) (hcheck : checkLanes laid = .ok ())
    (haudio : (onTrack doc laid .audio).Pairwise
      (fun l m => l.lane .audio = m.lane .audio → Apart Laid.start Laid.endFrame l m)) :
    laid.IsChain (fun l m => ∀ d, m.mixIn = some d → shared l m = d ∧
      ∀ part, hasEntry doc l.source part → hasEntry doc m.source part → l.lane part ≠ m.lane part) := by
  rw [isChain_iff_getElem?]
  intro k l m hl hm d hd
  obtain ⟨p, q, before, -, -, hfrom, hnext⟩ := h.next hl hm
  obtain ⟨hshared, hmeet⟩ := crossfade_shared hfrom hnext hd
  refine ⟨hshared, fun part hlpart hmpart hlane => hmeet ?_⟩
  cases part with
  | video =>
    have hvideo := pairwise_iff_getElem?.mp (apart_of_videoLane h hcheck)
    exact hvideo k (k + 1) l m (Nat.lt_succ_self k) hl hm hlane
  | audio =>
    exact onTrack_pairwise.mp haudio k (k + 1) l m (Nat.lt_succ_self k) hl hm hlpart hmpart hlane

/-! ## Frames -/

theorem frames_hold (h : Laying doc wanted laid) :
    ∀ l ∈ laid, 0 ≤ l.inFrame ∧ l.inFrame ≤ l.outFrame := by
  intro l hl
  obtain ⟨k, hk⟩ := List.mem_iff_getElem?.mp hl
  obtain ⟨p, -, hfrom⟩ := h.placement hk
  rw [hfrom.inFrame, hfrom.outFrame]
  exact ⟨le_max_right _ 0, hfrom.fits⟩

theorem apart_video (h : Laying doc wanted laid) (hcheck : checkLanes laid = .ok ()) :
    (onTrack doc laid .video).Pairwise
      (fun l m => l.lane .video = m.lane .video → Apart Laid.start Laid.endFrame l m) :=
  (apart_of_videoLane h hcheck).sublist List.filter_sublist

/-- What the layout does not see to itself. -/
theorem validTimeline_iff (h : Laying doc wanted laid) (hcheck : checkLanes laid = .ok ()) :
    ValidTimeline doc laid ↔
      (∀ p ∈ wanted.head?, p.source = .existing 0 → 0 ≤ doc.items[0]!.start) ∧
      (∀ (k : ℕ) (p q : Placement), wanted[k]? = some p → wanted[k + 1]? = some q →
        ∀ mix, mixOf doc p q = some mix → mix.frames ≤ length doc doc.items p) ∧
      (∀ (j k : ℕ) (p q : Placement), j < k → wanted[j]? = some p → wanted[k]? = some q →
        hasEntry doc p.source .audio → hasEntry doc q.source .audio →
        soundLanesDiffer doc p.source q.source ∨ 0 ≤ distance doc wanted j k) := by
  constructor
  · intro hvalid
    exact ⟨(starts_iff h hvalid.order).mp hvalid.starts, (order_iff h).mp hvalid.order,
      (apart_audio_iff h hcheck hvalid.order).mp (hvalid.apart .audio)⟩
  · rintro ⟨hfirst, hmixes, hsound⟩
    have horder := (order_iff h).mpr hmixes
    have haudio := (apart_audio_iff h hcheck horder).mpr hsound
    refine ⟨frames_hold h, (starts_iff h horder).mpr hfirst, horder, ?_,
      crossfades_hold h hcheck haudio⟩
    intro part
    cases part with
    | video => exact apart_video h hcheck
    | audio => exact haudio

/-! ## Reading back -/

theorem lane_le (h : Laying doc wanted laid) {l : Laid} (hl : l ∈ laid) (part : Part) :
    l.lane part ≤ 1 := by
  obtain ⟨k, hk⟩ := List.mem_iff_getElem?.mp hl
  obtain ⟨p, -, hfrom⟩ := h.placement hk
  cases part with
  | video => exact hfrom.lane_le.1
  | audio => exact hfrom.lane_le.2

/-- A wanted clip comes from a laid one that has an entry. -/
theorem mem_wantedLane {part : Part} {lane : ℕ} {w : Wanted}
    (hw : w ∈ wantedLane doc doc.items texts laid part lane) :
    ∃ l ∈ laid, min (l.lane part) 1 = lane ∧ wantedClip doc doc.items texts part l = some w := by
  obtain ⟨l, hl, hclip⟩ := List.mem_filterMap.mp hw
  obtain ⟨hl, hlane⟩ := List.mem_filter.mp hl
  exact ⟨l, hl, by simpa using hlane, hclip⟩

theorem wantedLane_places (h : Laying doc wanted laid) (part : Part) (lane : ℕ) :
    (wantedLane doc doc.items texts laid part lane).map Wanted.place =
      ((onTrack doc laid part).filter (fun l => l.lane part = lane)).map Laid.place := by
  have hfilter : laid.filter (fun l => min (l.lane part) 1 = lane) =
      laid.filter (fun l => l.lane part = lane) := by
    refine List.filter_congr fun l hl => ?_
    rw [min_eq_left (lane_le h hl part)]
  unfold wantedLane onTrack
  rw [hfilter, List.filter_comm, List.map_filterMap]
  generalize laid.filter (fun l => l.lane part = lane) = ls
  induction ls with
  | nil => rfl
  | cons l rest ih =>
    unfold wantedClip at ih ⊢
    cases hentry : entryOn doc doc.items l.source part with
    | none =>
      rw [List.filterMap_cons_none (by simp [hentry]), List.filter_cons_of_neg (by simp [hasEntry, hentry])]
      exact ih
    | some old =>
      rw [List.filterMap_cons_some (by simp [hentry]; rfl),
        List.filter_cons_of_pos (by simp [hasEntry, hentry]), List.map_cons, ih]
      rfl

/-- An entry whose times are set, where it has them, says them when they are what it says without. -/
theorem says_set {c e : Element} {first last : ℤ}
    (hfirst : doc.fps.parse (doc.fps.timecode first) = some first)
    (hlast : doc.fps.parse (doc.fps.timecode last) = some last)
    (hin : c.inTime = e.inTime.map (fun _ => doc.fps.timecode first))
    (hout : c.outTime = e.outTime.map (fun _ => doc.fps.timecode last)) :
    (readIn doc c = first ∧ readOut doc c = last) ↔
      (e.inTime = none → first = 0) ∧ (e.outTime = none → last = first) := by
  unfold readOut readIn
  rw [hin, hout]
  cases e.inTime <;> cases e.outTime <;> simp [hfirst, hlast] <;> omega

/-- A new entry says its frames; one of the project when it has times to set, or needs none. -/
theorem says_iff {before : Option Laid} {p : Placement} {l : Laid} {part : Part} {w : Wanted}
    (hfrom : LaidFrom doc doc.items (itemMixes doc doc.items) before p l)
    (hw : wantedClip doc doc.items texts part l = some w) :
    Says doc w ↔
      ∀ e, entryOn doc doc.items p.source part = some (some e) → saysTimes doc p e.node := by
  have hin : doc.fps.parse (doc.fps.timecode l.inFrame) = some l.inFrame :=
    doc.fps.parse_timecode _ (by rw [hfrom.inFrame]; exact le_max_right _ 0)
  have hout : doc.fps.parse (doc.fps.timecode l.outFrame) = some l.outFrame := by
    have hfits := hfrom.fits
    have hzero : 0 ≤ shownIn doc doc.items p := le_max_right _ 0
    exact doc.fps.parse_timecode _ (by rw [hfrom.outFrame]; omega)
  unfold wantedClip at hw
  rw [hfrom.source] at hw
  cases hentry : entryOn doc doc.items p.source part with
  | none => simp [hentry] at hw
  | some old =>
    rw [hentry] at hw
    obtain rfl := Option.some.inj hw
    cases old with
    | none =>
      refine iff_of_true ⟨?_, ?_⟩ nofun
      · simp [readIn, entryText, bareEntry, hin]
      · simp [readOut, entryText, bareEntry, hout]
    | some e =>
      have htimes : (entryText doc texts l part (some e)).inTime =
          e.node.inTime.map (fun _ => doc.fps.timecode l.inFrame) ∧
          (entryText doc texts l part (some e)).outTime =
          e.node.outTime.map (fun _ => doc.fps.timecode l.outFrame) := by
        unfold entryText
        cases l.source <;> exact ⟨rfl, rfl⟩
      have hset := says_set hin hout htimes.1 htimes.2
      rw [hfrom.inFrame, hfrom.outFrame] at hset
      unfold Says saysTimes
      simpa [hfrom.inFrame, hfrom.outFrame] using hset

theorem wantedClip_len {part : Part} {l : Laid} {w : Wanted}
    (hw : wantedClip doc doc.items texts part l = some w) :
    w.start = l.start ∧ w.len = l.len ∧ w.len = w.outFrame - w.inFrame + 1 := by
  obtain ⟨old, -, rfl⟩ := Option.map_eq_some_iff.mp hw
  exact ⟨rfl, rfl, rfl⟩

/-- On one lane what is wanted is in line. -/
theorem wantedLane_line (h : Laying doc wanted laid) (hvalid : ValidTimeline doc laid) (part : Part)
    (lane : ℕ) : (wantedLane doc doc.items texts laid part lane).Pairwise
      (fun v w => v.start + v.len ≤ w.start) := by
  have hapart := onTrack_pairwise.mp (hvalid.apart part)
  have htrans : IsTrans Laid (fun l m => l.start ≤ m.start) := ⟨fun _ _ _ => le_trans⟩
  have horder := pairwise_iff_getElem?.mp (List.isChain_iff_pairwise.mp hvalid.order)
  unfold wantedLane
  rw [List.pairwise_filterMap, List.pairwise_filter, pairwise_iff_getElem?]
  intro j k l m hjk hl hm hlane hmlane v hv w hw
  have hlmem := List.mem_of_getElem? hl
  have hmmem := List.mem_of_getElem? hm
  have hlentry : hasEntry doc l.source part = true := by
    obtain ⟨old, hold, -⟩ := Option.map_eq_some_iff.mp hv
    simp [hasEntry, hold]
  have hmentry : hasEntry doc m.source part = true := by
    obtain ⟨old, hold, -⟩ := Option.map_eq_some_iff.mp hw
    simp [hasEntry, hold]
  have hsame : l.lane part = m.lane part := by
    have hle := lane_le h hlmem part
    have hme := lane_le h hmmem part
    simp only [decide_eq_true_eq] at hlane hmlane
    omega
  have hbefore := (hapart j k l m hjk hl hm hlentry hmentry hsame).before
    (horder j k l m hjk hl hm) (by have := len_pos h hmmem; unfold Laid.endFrame; omega)
  obtain ⟨hvstart, hvlen, -⟩ := wantedClip_len hv
  obtain ⟨hwstart, -, -⟩ := wantedClip_len hw
  rw [hvstart, hvlen, hwstart]
  exact hbefore

theorem readsBack_iff (h : Laying doc wanted laid) (hvalid : ValidTimeline doc laid) :
    PlaylistsReadBack doc texts laid ↔
      ∀ p ∈ wanted, ∀ part e, entryOn doc doc.items p.source part = some (some e) →
        saysTimes doc p e.node := by
  unfold PlaylistsReadBack
  constructor
  · intro hback p hp part e hentry
    obtain ⟨k, hk⟩ := List.mem_iff_getElem?.mp hp
    obtain ⟨l, hl, hfrom⟩ := h.getElem? hk
    have hclip : ∃ w, wantedClip doc doc.items texts part l = some w := by
      unfold wantedClip
      rw [hfrom.source, hentry]
      exact ⟨_, rfl⟩
    obtain ⟨w, hw⟩ := hclip
    have hmem : w ∈ wantedLane doc doc.items texts laid part (min (l.lane part) 1) :=
      List.mem_filterMap.mpr ⟨l, List.mem_filter.mpr ⟨List.mem_of_getElem? hl, by simp⟩, hw⟩
    have hlane := hback part (min (l.lane part) 1) (by omega)
    rw [← wantedLane_places h] at hlane
    exact (says_iff hfrom hw).mp (says_of_readsBack hlane w hmem) e hentry
  · intro htimes part lane hlane
    rw [← wantedLane_places h]
    refine readsBack_of_line ?_ ?_ ?_ (wantedLane_line h hvalid part lane)
    · intro w hw
      obtain ⟨l, hl, -, hclip⟩ := mem_wantedLane hw
      obtain ⟨k, hk⟩ := List.mem_iff_getElem?.mp hl
      obtain ⟨p, hp, hfrom⟩ := h.placement hk
      exact (says_iff hfrom hclip).mpr (htimes p (List.mem_of_getElem? hp) part)
    · intro w hw
      obtain ⟨l, -, -, hclip⟩ := mem_wantedLane hw
      exact (wantedClip_len hclip).2.2
    · intro w hw
      obtain ⟨l, hl, -, hclip⟩ := mem_wantedLane hw
      rw [(wantedClip_len hclip).1]
      exact hvalid.starts l hl

/-! ## The timeline -/

/-- Two clips of new media, the second fading in. -/
def fadedClips : List Placement :=
  [.of (.new ⟨"a.mp4", 100, some 0, some 1, 0, ""⟩),
    { Placement.of (.new ⟨"b.mp4", 50, some 0, some 1, 0, ""⟩) with mixIn := some 10 }]

/-- A project without clips. -/
def emptyProject : Doc where
  fps := Rate.pal.fps Rate.pal_lt
  chains := []
  bin := []
  groups := .array []
  track := fun _ => ⟨[], [], []⟩
  mainVideo := 2
  mainAudio := 1
  audio_before_video := Nat.one_lt_two

def plainTexts : Texts := ⟨fun _ _ => "chain0", fun _ c => c.filters, fun _ c => c.body⟩

theorem exists_layout (doc : Doc) (wanted : List Placement) (starts : List ℤ)
    (h : (layout doc doc.items wanted).toOption.map (fun r => r.1.map Laid.start) = some starts) :
    ∃ laid notes, layout doc doc.items wanted = .ok (laid, notes) ∧ laid.map Laid.start = starts := by
  cases hlayout : layout doc doc.items wanted with
  | error e =>
    rw [hlayout] at h
    cases h
  | ok r =>
    rw [hlayout] at h
    exact ⟨r.1, r.2, rfl, Option.some.inj h⟩

/-- An `<entry>` of 100 frames. -/
def hundredFrames (index : ℕ) : Element :=
  ⟨index, some "00:00:00.000", some "00:00:03.960", some s!"chain{index}", some "4", [], ""⟩

/-- Two linked clips of 100 frames, joined by a mix of 10 that the user made. -/
def mixedProject : Doc where
  fps := Rate.pal.fps Rate.pal_lt
  chains := []
  bin := [⟨"4", 100⟩]
  groups := .array []
  track := fun _ =>
    { playlistA := [.entry (hundredFrames 0)]
      playlistB := [.blank (some "00:00:03.600"), .entry (hundredFrames 1)]
      transitions := [⟨some "00:00:03.600", some "00:00:04.000", false⟩] }
  mainVideo := 2
  mainAudio := 1
  audio_before_video := Nat.one_lt_two

/-- The first clip trimmed to its last five frames. -/
def trimmedIntoMix : List Placement :=
  [{ Placement.of (.existing 0) with inFrame := some 95 }, .of (.existing 1)]

end Haruspex.Kdenlive
