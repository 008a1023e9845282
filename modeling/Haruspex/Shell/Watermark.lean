import Haruspex.Library.Runs
import Haruspex.Shell.Markers
import Haruspex.Shell.Ring

/-! The output of a command that still runs, captured again and again from where the last capture
ended. -/
namespace Haruspex.Shell
open Rust Ring Runs
set_option autoImplicit false

/-! ## A reader of the shell -/

structure Follower where
  integration : Integration
  /-- All bytes that came. -/
  stream : List UInt8
  /-- Where the last pending region ended. -/
  pendingFrom : ℕ
  /-- The pending regions so far. -/
  taken : List CapturedRegion

inductive Step where
  | arrive (chunk : List UInt8)
  | capture (limit : ℕ)
  deriving DecidableEq

namespace Follower

def start (outputCapacity markerCapacity pendingFrom : ℕ) : Follower :=
  ⟨Integration.withCapacity outputCapacity markerCapacity, [], pendingFrom, []⟩

/-- The pending regions of a capture. -/
def pending (f : Follower) (limit : ℕ) : List CapturedRegion :=
  (f.integration.captureRecentCommandsWithPending limit f.pendingFrom).filter (·.pending)

def apply (codecs : Codecs) : Step → Follower → Follower
  | .arrive chunk, f =>
    { f with integration := f.integration.ingest codecs chunk, stream := f.stream ++ chunk }
  | .capture limit, f =>
    { f with
      pendingFrom := ((f.pending limit).getLast?.map CapturedRegion.outputEnd).getD f.pendingFrom
      taken := f.taken ++ f.pending limit }

end Follower

/-- The command that no other came after, and that did not end. -/
def inFlight (markers : List Marker) : Option Marker :=
  ((markers.filter (fun m => m.kind = .outputStart ∨ m.kind = .outputEnd)).getLast?).filter
    (fun m => m.kind = .outputStart)

/-! ## Regions that follow each other -/

/-- Each region starts where the one before it ends. -/
def Contiguous : ℕ → List CapturedRegion → Prop
  | _, [] => True
  | place, region :: regions =>
    region.outputStart = place ∧ place ≤ region.outputEnd ∧ Contiguous region.outputEnd regions

def endOf (place : ℕ) (regions : List CapturedRegion) : ℕ :=
  (regions.getLast?.map CapturedRegion.outputEnd).getD place

theorem endOf_cons (place : ℕ) (region : CapturedRegion) (regions : List CapturedRegion) :
    endOf place (region :: regions) = endOf region.outputEnd regions := by
  unfold endOf
  cases regions with
  | nil => rfl
  | cons next regions => rw [List.getLast?_cons_cons]; simp [List.getLast?_cons]

theorem contiguous_append_singleton {place : ℕ} {regions : List CapturedRegion}
    {region : CapturedRegion} :
    Contiguous place (regions ++ [region]) ↔
      Contiguous place regions ∧ region.outputStart = endOf place regions ∧
        endOf place regions ≤ region.outputEnd := by
  induction regions generalizing place with
  | nil => simp [Contiguous, endOf]
  | cons first regions ih =>
    rw [List.cons_append, Contiguous, Contiguous, ih, endOf_cons, and_assoc, and_assoc]

/-! ## What a pending region has to be -/

/-- A region of what the ring still has, and it says whether anything is missing. -/
structure Whole (capacity : ℕ) (stream : List UInt8) (b c : Marker) (region : CapturedRegion) :
    Prop where
  reaches : region.outputEnd = stream.length
  output : region.output =
    bytesToCleanText (kept capacity stream region.outputStart region.outputEnd)
  truncated : region.truncated = true ↔ Gone capacity stream region.outputStart region.outputEnd ∨
    (c.commandLine = none ∧ Gone capacity stream b.seqEnd c.seqStart)

/-- The output since the last capture is still in the ring, and so is the place of a command line
that is empty; or what is left in the ring shows nothing. -/
def InReach (s : Integration) (pendingFrom : ℕ) (b c : Marker) : Prop :=
  if s.outputFirstOffset ≤ max pendingFrom c.seqEnd then
    ¬ (c.commandLine = none ∧ b.seqEnd = c.seqStart ∧ b.seqEnd < s.outputFirstOffset)
  else bytesToCleanText s.output = ""

instance (s : Integration) (pendingFrom : ℕ) (b c : Marker) : Decidable (InReach s pendingFrom b c) :=
  inferInstanceAs (Decidable (if s.outputFirstOffset ≤ max pendingFrom c.seqEnd then
    ¬ (c.commandLine = none ∧ b.seqEnd = c.seqStart ∧ b.seqEnd < s.outputFirstOffset)
    else bytesToCleanText s.output = ""))

/-! ## One capture -/

namespace Integration

variable {s : Integration} {capacity : ℕ} {stream : List UInt8} {b c : Marker}

theorem resolveCommandLine_truncated (h : Holds capacity stream s) (hle : b.seqEnd ≤ c.seqStart)
    (hwithin : c.seqStart ≤ stream.length) :
    (s.resolveCommandLine b c).2 = true ↔
      c.commandLine = none ∧ b.seqEnd < stream.length - capacity := by
  unfold resolveCommandLine
  cases c.commandLine with
  | some cl => simp
  | none =>
    dsimp only
    rw [sliceOutput_eq h hle hwithin]
    split <;> simp_all

theorem pendingRegion_whole_iff (hholds : Holds capacity stream s)
    (htotal : s.totalOffset = stream.length) (hcommand : b.seqEnd ≤ c.seqStart)
    (hstart : c.seqStart ≤ c.seqEnd) (hend : c.seqEnd ≤ stream.length) {pendingFrom : ℕ}
    (hfrom : pendingFrom ≤ stream.length) :
    Whole capacity stream b c (s.pendingRegion b c pendingFrom) ↔ InReach s pendingFrom b c := by
  have hstop : max s.totalOffset (max pendingFrom c.seqEnd) = stream.length := by omega
  have hslice := @sliceOutput_eq _ _ _ hholds (max pendingFrom c.seqEnd) _ (by omega) (Nat.le_refl stream.length)
  have hcut := resolveCommandLine_truncated (b := b) (c := c) hholds hcommand (by omega)
  have hgone : Gone capacity stream b.seqEnd c.seqStart ↔
      b.seqEnd < c.seqStart ∧ b.seqEnd < stream.length - capacity := by
    rw [gone_iff]
    omega
  have hmissing : Gone capacity stream (max pendingFrom c.seqEnd) stream.length ↔
      max pendingFrom c.seqEnd < stream.length - capacity := by
    rw [gone_iff]
    omega
  have hends : (s.pendingRegion b c pendingFrom).outputEnd = stream.length := hstop
  have hstarts : (s.pendingRegion b c pendingFrom).outputStart = max pendingFrom c.seqEnd := rfl
  have houtput : (s.pendingRegion b c pendingFrom).output =
      bytesToCleanText ((s.sliceOutput (max pendingFrom c.seqEnd) stream.length).getD []) := by
    rw [← hstop]
    rfl
  have htruncated : (s.pendingRegion b c pendingFrom).truncated =
      ((s.resolveCommandLine b c).2 ||
        (s.sliceOutput (max pendingFrom c.seqEnd) stream.length).isNone) := by
    rw [← hstop]
    rfl
  unfold InReach
  rw [hholds.first]
  by_cases hreach : stream.length - capacity ≤ max pendingFrom c.seqEnd
  · rw [if_pos hreach]
    rw [hslice, if_neg (by omega)] at houtput htruncated
    rw [Option.isNone_some, Bool.or_false] at htruncated
    have hnone : ¬ Gone capacity stream (max pendingFrom c.seqEnd) stream.length := by
      rw [hmissing]
      omega
    constructor
    · rintro ⟨-, -, hspans⟩ ⟨hcl, hempty, hfell⟩
      rw [htruncated, hcut, hends, hstarts, hgone] at hspans
      have hlost := hspans.mp ⟨hcl, hfell⟩
      cases hlost with
      | inl hrange => exact hnone hrange
      | inr hline => omega
    · intro hplain
      refine ⟨hends, by rw [houtput, hends, hstarts]; rfl, ?_⟩
      rw [htruncated, hcut, hends, hstarts, hgone]
      constructor
      · rintro ⟨hcl, hfell⟩
        have hsome : b.seqEnd ≠ c.seqStart := fun hempty => hplain ⟨hcl, hempty, hfell⟩
        exact Or.inr ⟨hcl, by omega, hfell⟩
      · intro hlost
        cases hlost with
        | inl hrange => exact absurd hrange hnone
        | inr hline => exact ⟨hline.1, hline.2.2⟩
  · rw [if_neg hreach]
    rw [hslice, if_pos (by omega)] at houtput htruncated
    rw [Option.isNone_none, Bool.or_true] at htruncated
    have hempty : (s.pendingRegion b c pendingFrom).output = "" := houtput
    have hkept : kept capacity stream (max pendingFrom c.seqEnd) stream.length = s.output := by
      rw [hholds.output]
      exact kept_of_lt (by omega)
    constructor
    · rintro ⟨-, hshown, -⟩
      rw [hempty, hends, hstarts, hkept] at hshown
      exact hshown.symm
    · intro hshown
      refine ⟨hends, by rw [hempty, hends, hstarts, hkept, hshown], ?_⟩
      rw [htruncated, hends, hstarts]
      exact ⟨fun _ => Or.inl (hmissing.mpr (by omega)), fun _ => rfl⟩

/-- The command in flight, as the markers that are kept tell. -/
theorem pendingMarkers_inFlight (h : s.pendingMarkers = some (b, c)) :
    inFlight s.markers = some c := by
  obtain ⟨before, between, after, hmarkers, -, hkind, hafter⟩ := pendingMarkers_eq_some h
  have hnone : after.filter (fun m => m.kind = .outputStart ∨ m.kind = .outputEnd) = [] := by
    rw [List.filter_eq_nil_iff]
    intro m hmem
    simpa using hafter m hmem
  unfold inFlight
  rw [hmarkers, List.filter_append, List.filter_cons_of_pos (by simp [hkind]), hnone,
    List.getLast?_append, List.getLast?_singleton, Option.some_or, Option.filter_some, if_pos (by simp [hkind])]

/-- The markers of the command in flight came in order. -/
theorem pendingMarkers_ordered {place : ℕ} (hordered : Ordered s place)
    (h : s.pendingMarkers = some (b, c)) :
    b.seqEnd ≤ c.seqStart ∧ c.seqStart ≤ c.seqEnd ∧ c.seqEnd ≤ place := by
  obtain ⟨before, between, after, hmarkers, -, -, -⟩ := pendingMarkers_eq_some h
  have hc : c ∈ s.markers := by simp [hmarkers]
  have hpairs := hordered.inOrder
  rw [hmarkers] at hpairs
  have hbc := (List.pairwise_append.mp hpairs).2.2 b (by simp) c List.mem_cons_self
  exact ⟨hbc, hordered.within c hc⟩

end Integration

/-! ## Any number of captures -/

namespace Follower

variable (codecs : Codecs) {capacity : ℕ} {c : Marker}

/-- At a capture no other command is in flight. -/
def OneInFlight (c : Marker) (f : Follower) : Step → Prop
  | .arrive _ => True
  | .capture _ => ∀ c' ∈ inFlight f.integration.markers, c' = c

/-- What a capture takes of the command in flight is whole. -/
def TakesWhole (capacity : ℕ) (c : Marker) (f : Follower) : Step → Prop
  | .arrive _ => True
  | .capture limit => ∀ region ∈ f.pending limit,
    ∃ b, f.integration.pendingMarkers = some (b, c) ∧ Whole capacity f.stream b c region

/-- What a capture is to take of the command in flight is in reach. -/
def TakesInReach (c : Marker) (f : Follower) : Step → Prop
  | .arrive _ => True
  | .capture _ => ∀ markers ∈ f.integration.pendingMarkers,
    InReach f.integration f.pendingFrom markers.1 c

instance (c : Marker) (f : Follower) : (step : Step) → Decidable (OneInFlight c f step)
  | .arrive _ => instDecidableTrue
  | .capture _ => inferInstanceAs (Decidable (∀ c' ∈ inFlight f.integration.markers, c' = c))

instance (c : Marker) (f : Follower) : (step : Step) → Decidable (TakesInReach c f step)
  | .arrive _ => instDecidableTrue
  | .capture _ => inferInstanceAs (Decidable (∀ markers ∈ f.integration.pendingMarkers,
      InReach f.integration f.pendingFrom markers.1 c))

/-- A reader of one command. -/
structure Follows (capacity : ℕ) (c : Marker) (f : Follower) : Prop where
  holds : f.integration.Holds capacity f.stream
  total : f.integration.totalOffset = f.stream.length
  ordered : f.integration.Ordered f.integration.totalOffset
  watermark : max f.pendingFrom c.seqEnd = endOf c.seqEnd f.taken
  arrived : f.pendingFrom ≤ max c.seqEnd f.stream.length
  contiguous : Contiguous c.seqEnd f.taken

theorem start_follows {markerCapacity pendingFrom : ℕ} (hfrom : pendingFrom ≤ c.seqEnd) :
    Follows capacity c (start capacity markerCapacity pendingFrom) where
  holds := ⟨by simp [start, Integration.withCapacity, newest], rfl, (Nat.zero_sub capacity).symm⟩
  total := rfl
  ordered :=
    ⟨fun _ hmem => absurd hmem List.not_mem_nil, List.Pairwise.nil, fun _ h => absurd h (by simp [start,
      Integration.withCapacity, Integration.openedAt])⟩
  watermark := Nat.max_eq_right hfrom
  arrived := Nat.le_trans hfrom (Nat.le_max_left _ _)
  contiguous := trivial

theorem pending_eq (f : Follower) (limit : ℕ) :
    f.pending limit = (f.integration.pendingCommand f.pendingFrom).toList :=
  Integration.filter_pending f.integration limit f.pendingFrom

theorem apply_follows (hpos : 0 < capacity) {f : Follower} (h : Follows capacity c f) {step : Step}
    (hone : OneInFlight c f step) : Follows capacity c (f.apply codecs step) := by
  cases step with
  | arrive chunk =>
    have htotal : (f.integration.ingest codecs chunk).totalOffset =
        (f.stream ++ chunk).length := by
      rw [Integration.totalOffset_ingest, h.total, List.length_append]
    have harrived := h.arrived
    refine ⟨Integration.ingest_holds codecs hpos h.holds chunk, htotal,
      Integration.ingest_ordered codecs h.ordered chunk, h.watermark, ?_, h.contiguous⟩
    show f.pendingFrom ≤ max c.seqEnd (f.stream ++ chunk).length
    rw [List.length_append]
    omega
  | capture limit =>
    have htaken := f.pending_eq limit
    unfold Integration.pendingCommand at htaken
    cases hmarkers : f.integration.pendingMarkers with
    | none =>
      rw [hmarkers, Option.map_none, Option.toList_none] at htaken
      have hsame : f.apply codecs (.capture limit) = f := by
        unfold apply
        simp [htaken]
      rw [hsame]
      exact h
    | some pair =>
      obtain ⟨b, c'⟩ := pair
      obtain rfl : c' = c := hone c' (Integration.pendingMarkers_inFlight hmarkers)
      rw [hmarkers, Option.map_some, Option.toList_some] at htaken
      have hwithin := (Integration.pendingMarkers_ordered h.ordered hmarkers).2.2
      have harrived := h.arrived
      have htotal := h.total
      have hstop : max f.integration.totalOffset (max f.pendingFrom c'.seqEnd) = f.stream.length := by
        omega
      have hwatermark := h.watermark
      unfold apply
      dsimp only
      rw [htaken]
      refine ⟨h.holds, h.total, h.ordered, ?_, ?_, ?_⟩
      · show max (max f.integration.totalOffset (max f.pendingFrom c'.seqEnd)) c'.seqEnd =
          endOf c'.seqEnd (f.taken ++ [f.integration.pendingRegion b c' f.pendingFrom])
        have hend : endOf c'.seqEnd
            (f.taken ++ [f.integration.pendingRegion b c' f.pendingFrom]) =
              max f.integration.totalOffset (max f.pendingFrom c'.seqEnd) := by
          unfold endOf
          rw [List.getLast?_append, List.getLast?_singleton]
          rfl
        rw [hend]
        omega
      · show max f.integration.totalOffset (max f.pendingFrom c'.seqEnd) ≤ _
        rw [hstop]
        exact Nat.le_max_right _ _
      · refine contiguous_append_singleton.mpr ⟨h.contiguous, hwatermark, ?_⟩
        rw [← hwatermark]
        exact Nat.le_max_right _ _

/-- One capture, of a reader of one command. -/
theorem takesWhole_iff {f : Follower} (h : Follows capacity c f) {step : Step}
    (hone : OneInFlight c f step) : TakesWhole capacity c f step ↔ TakesInReach c f step := by
  cases step with
  | arrive chunk => exact Iff.rfl
  | capture limit =>
    have hpending := f.pending_eq limit
    unfold Integration.pendingCommand at hpending
    unfold TakesWhole TakesInReach
    dsimp only
    rw [hpending]
    cases hmarkers : f.integration.pendingMarkers with
    | none => simp
    | some pair =>
      obtain ⟨b, c'⟩ := pair
      obtain rfl : c' = c := hone c' (Integration.pendingMarkers_inFlight hmarkers)
      obtain ⟨hcommand, hstart, hend⟩ := Integration.pendingMarkers_ordered h.ordered hmarkers
      have htotal := h.total
      have harrived := h.arrived
      have hwhole : Whole capacity f.stream b c'
            (f.integration.pendingRegion b c' f.pendingFrom) ↔
          InReach f.integration f.pendingFrom b c' :=
        Integration.pendingRegion_whole_iff h.holds h.total hcommand hstart (by omega) (by omega)
      simp [hwhole]

/-- The captures of a command in flight follow each other from where it starts, and each is whole,
just when what is to be taken is in reach of each. -/
theorem captured_once_iff (hpos : 0 < capacity) (markerCapacity pendingFrom : ℕ) (c : Marker)
    (hfrom : pendingFrom ≤ c.seqEnd) (steps : List Step)
    (hone : EveryStep (apply codecs) (start capacity markerCapacity pendingFrom) steps
      (OneInFlight c)) :
    (Contiguous c.seqEnd
        (run (apply codecs) (start capacity markerCapacity pendingFrom) steps).taken ∧
      EveryStep (apply codecs) (start capacity markerCapacity pendingFrom) steps
        (TakesWhole capacity c)) ↔
      EveryStep (apply codecs) (start capacity markerCapacity pendingFrom) steps
        (TakesInReach c) := by
  have hstep (f : Follower) (step : Step) (h : Follows capacity c f) (hone : OneInFlight c f step) :=
    apply_follows codecs hpos h hone
  have hstart : Follows capacity c (start capacity markerCapacity pendingFrom) :=
    start_follows hfrom
  have hall := EveryStep.keeps (Follows capacity c) hstep hstart hone
  constructor
  · rintro ⟨-, htakes⟩ before step after hsteps
    exact (takesWhole_iff (hall before step after hsteps) (hone before step after hsteps)).mp
      (htakes before step after hsteps)
  · intro hreach
    refine ⟨(run_keeps (Follows capacity c) hstep hstart hone).contiguous,
      fun before step after hsteps => ?_⟩
    exact (takesWhole_iff (hall before step after hsteps) (hone before step after hsteps)).mpr
      (hreach before step after hsteps)

/-! ## More output than the ring holds -/

/-- A prompt's end, and where its command's output starts. -/
def started : List UInt8 :=
  [0x1B, 0x5D, 0x31, 0x33, 0x33, 0x3B, 0x42, 0x07, 0x1B, 0x5D, 0x31, 0x33, 0x33, 0x3B, 0x43, 0x07]

def startedAt : Marker := ⟨.outputStart, 8, 16, none, none, none⟩

/-- `tick` or `tock`, and a new line. -/
def sound (vowel : UInt8) : List UInt8 := [0x74, vowel, 0x63, 0x6B, 0x0A]

/-- A command whose output comes in two parts, taken after each. -/
def ticking : List Step :=
  [.arrive started, .arrive (sound 0x69), .capture 5, .arrive (sound 0x6F), .capture 5]

/-- A ring of 32 bytes has each part when it is taken. -/
theorem captured_once_iff_ticking :
    Contiguous 16 (run (apply Integration.noCodecs) (start 32 8 0) ticking).taken ∧
      EveryStep (apply Integration.noCodecs) (start 32 8 0) ticking (TakesWhole 32 startedAt) :=
  (captured_once_iff Integration.noCodecs (by decide) 8 0 startedAt (by decide) ticking
    (by decide +kernel)).mpr (by decide +kernel)

/-- 10 bytes of output and a ring of 8: the capture gives none of them. -/
def overflowing : List Step := [.arrive started, .arrive (sound 0x69), .arrive (sound 0x6F), .capture 5]

theorem newest_not_captured :
    ¬ ∀ (codecs : Codecs) (capacity markerCapacity pendingFrom : ℕ) (c : Marker) (steps : List Step),
      pendingFrom ≤ c.seqEnd →
      EveryStep (apply codecs) (start capacity markerCapacity pendingFrom) steps (OneInFlight c) →
        Contiguous c.seqEnd
            (run (apply codecs) (start capacity markerCapacity pendingFrom) steps).taken ∧
          EveryStep (apply codecs) (start capacity markerCapacity pendingFrom) steps
            (TakesWhole capacity c) := by
  intro h
  have htakes := (h Integration.noCodecs 8 8 0 startedAt overflowing (by decide)
    (by decide +kernel)).2 [.arrive started, .arrive (sound 0x69), .arrive (sound 0x6F)] (.capture 5)
    [] rfl
  have hregion : ⟨"", "", none, none, true, true, 16, 26⟩ ∈
      (run (apply Integration.noCodecs) (start 8 8 0)
        [.arrive started, .arrive (sound 0x69), .arrive (sound 0x6F)]).pending 5 := by
    decide +kernel
  obtain ⟨b, -, hwhole⟩ := htakes _ hregion
  exact absurd hwhole.output (by decide +kernel)

end Follower

end Haruspex.Shell
