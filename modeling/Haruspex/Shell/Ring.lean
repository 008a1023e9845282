import Haruspex.Shell.Capture
import Haruspex.Shell.Chunks
import Haruspex.Library.Ring

/-! What the ring of output has of the stream, and where the markers are in it. -/
namespace Haruspex.Shell
open Rust Ring
set_option autoImplicit false

namespace Integration

variable (codecs : Codecs) {s : Integration}

/-! ## The ring of output -/

/-- The ring has the newest bytes of a stream, and the counts say so. -/
structure Holds (capacity : ℕ) (stream : List UInt8) (s : Integration) : Prop where
  output : s.output = newest capacity stream
  limit : s.outputCapacity = capacity
  first : s.outputFirstOffset = stream.length - capacity

theorem pushOutput_holds {capacity : ℕ} (hpos : 0 < capacity) {stream : List UInt8}
    (h : Holds capacity stream s) (b : UInt8) :
    Holds capacity (stream ++ [b]) (s.pushOutput b) := by
  have hpush := push_newest hpos stream b
  have hlength := length_newest capacity stream
  unfold push at hpush
  unfold pushOutput
  rw [h.output, h.limit, h.first]
  rw [hlength] at hpush ⊢
  split
  · rename_i hfull
    rw [if_pos hfull] at hpush
    refine ⟨hpush, rfl, ?_⟩
    show stream.length - capacity + 1 = _
    rw [List.length_append, List.length_singleton]
    omega
  · rename_i hroom
    rw [if_neg hroom] at hpush
    refine ⟨hpush, rfl, ?_⟩
    show stream.length - capacity = _
    rw [List.length_append, List.length_singleton]
    omega

theorem appendOutput_holds {capacity : ℕ} (hpos : 0 < capacity) {stream : List UInt8}
    (h : Holds capacity stream s) (chunk : List UInt8) :
    Holds capacity (stream ++ chunk) (s.appendOutput chunk) := by
  unfold appendOutput
  induction chunk generalizing s stream with
  | nil => simpa using h
  | cons b chunk ih =>
    have hnext := ih (pushOutput_holds hpos h b)
    rw [List.append_assoc, List.singleton_append] at hnext
    exact hnext

theorem ingest_holds {capacity : ℕ} (hpos : 0 < capacity) {stream : List UInt8}
    (h : Holds capacity stream s) (chunk : List UInt8) :
    Holds capacity (stream ++ chunk) (s.ingest codecs chunk) := by
  obtain ⟨houtput, hcapacity, hfirst, -⟩ := feedAll_ring codecs s s.totalOffset chunk
  have hfed : Holds capacity stream (s.feedAll codecs s.totalOffset chunk) :=
    ⟨houtput.trans h.output, hcapacity.trans h.limit, hfirst.trans h.first⟩
  have happended := appendOutput_holds hpos hfed chunk
  rw [ingest_eq]
  exact ⟨happended.output, happended.limit, happended.first⟩

theorem totalOffset_ingest (s : Integration) (chunk : List UInt8) :
    (s.ingest codecs chunk).totalOffset = s.totalOffset + chunk.length := by
  rw [ingest_eq]
  rfl

/-! ## Slices -/

/-- A slice, whether or not the ring has all of the range. -/
theorem sliceOutput_eq {capacity : ℕ} {stream : List UInt8} (h : Holds capacity stream s)
    {start stop : ℕ} (hle : start ≤ stop) (hstop : stop ≤ stream.length) :
    s.sliceOutput start stop =
      if start < stream.length - capacity then none else some (kept capacity stream start stop) := by
  unfold sliceOutput
  rw [h.output, h.first, length_newest]
  by_cases hstart : start < stream.length - capacity
  · rw [if_pos hstart, if_pos hstart]
  · have hwithin : ¬ min stream.length capacity < stop - (stream.length - capacity) := by omega
    rw [if_neg hstart, if_neg hstart, if_neg (by omega), if_neg hwithin,
      kept_of_le (by omega) hle]

/-! ## What a payload does -/

theorem handleOsc_cases (s : Integration) (payload : List UInt8) (seqStart seqEnd : ℕ) :
    s.handleOsc codecs payload seqStart seqEnd = s ∨
      (∃ marker : Marker, marker.seqStart = seqStart ∧ marker.seqEnd = seqEnd ∧
        s.handleOsc codecs payload seqStart seqEnd = s.pushMarker marker) ∨
      ∃ cwd, s.handleOsc codecs payload seqStart seqEnd = { s with currentCwd := cwd } := by
  unfold handleOsc
  split
  · exact Or.inl rfl
  · dsimp only
    split
    · unfold handle133
      dsimp only
      split
      · exact Or.inl rfl
      · exact Or.inr (Or.inl ⟨_, rfl, rfl, rfl⟩)
    · split
      · unfold handle7
        split
        · exact Or.inl rfl
        · dsimp only
          split
          · exact Or.inl rfl
          · exact Or.inr (Or.inr ⟨_, rfl⟩)
      · exact Or.inl rfl

/-! ## Where the markers are -/

def openedAt : ParserState → Option ℕ
  | .normal => none
  | .escSeen seqStart => some seqStart
  | .oscPayload seqStart _ => some seqStart
  | .oscEsc seqStart _ => some seqStart

/-- The markers that are kept came one after another, and so does the sequence that is open. -/
structure Ordered (s : Integration) (place : ℕ) : Prop where
  within : ∀ m ∈ s.markers, m.seqStart ≤ m.seqEnd ∧ m.seqEnd ≤ place
  inOrder : s.markers.Pairwise (fun a b => a.seqEnd ≤ b.seqStart)
  opened : ∀ start, openedAt s.state = some start →
    start ≤ place ∧ ∀ m ∈ s.markers, m.seqEnd ≤ start

theorem Ordered.mono {place later : ℕ} (h : Ordered s place) (hle : place ≤ later) :
    Ordered s later := by
  refine ⟨fun m hmem => ?_, h.inOrder, fun start hstart => ?_⟩
  · have := h.within m hmem
    omega
  · have := (h.opened start hstart).1
    exact ⟨by omega, (h.opened start hstart).2⟩

/-- A sequence that is not left open. -/
theorem Ordered.withState {place : ℕ} (h : Ordered s place) (state : ParserState)
    (hstate : openedAt state = none ∨ openedAt state = openedAt s.state) :
    Ordered { s with state := state } place := by
  refine ⟨h.within, h.inOrder, fun start hstart => ?_⟩
  cases hstate with
  | inl hnone => exact absurd (hnone.symm.trans hstart) (by simp)
  | inr hsame => exact h.opened start (hsame.symm.trans hstart)

theorem pushMarker_ordered {place seqStart : ℕ} (h : Ordered s place)
    (hopened : openedAt s.state = some seqStart) {marker : Marker}
    (hstart : marker.seqStart = seqStart) (hend : marker.seqEnd = place + 1) :
    Ordered { s.pushMarker marker with state := .normal } (place + 1) := by
  obtain ⟨hwithin, hbefore⟩ := h.opened seqStart hopened
  have hkept : (if s.markers.length = s.markerCapacity then s.markers.tail else s.markers) <:+
      s.markers := by
    split
    · exact List.tail_suffix s.markers
    · exact List.suffix_refl s.markers
  refine ⟨fun m hmem => ?_, ?_, fun start hstate => by simp [openedAt] at hstate⟩
  · have hmem' := List.mem_append.mp hmem
    cases hmem' with
    | inl hold =>
      have := h.within m (hkept.subset hold)
      omega
    | inr hnew =>
      rw [List.mem_singleton.mp hnew]
      omega
  · refine List.pairwise_append.mpr ⟨h.inOrder.sublist hkept.sublist, List.pairwise_singleton _ _,
      fun m hold m' hnew => ?_⟩
    rw [List.mem_singleton.mp hnew, hstart]
    exact hbefore m (hkept.subset hold)

theorem handleOsc_ordered {place seqStart : ℕ} (h : Ordered s place)
    (hopened : openedAt s.state = some seqStart) (payload : List UInt8) :
    Ordered { s.handleOsc codecs payload seqStart (place + 1) with state := .normal }
      (place + 1) := by
  have hsame := (h.mono (Nat.le_succ place)).withState .normal (Or.inl rfl)
  obtain heq | ⟨marker, hstart, hend, heq⟩ | ⟨cwd, heq⟩ :=
    handleOsc_cases codecs s payload seqStart (place + 1)
  · rw [heq]
    exact hsame
  · rw [heq]
    exact pushMarker_ordered h hopened hstart hend
  · rw [heq]
    exact ⟨hsame.within, hsame.inOrder, hsame.opened⟩

theorem feed_ordered {place : ℕ} (h : Ordered s place) (b : UInt8) :
    Ordered (s.feed codecs b place) (place + 1) := by
  have hnext := h.mono (Nat.le_succ place)
  unfold feed
  split
  · split
    · refine ⟨hnext.within, hnext.inOrder, fun start hstart => ?_⟩
      obtain rfl : place = start := Option.some.inj hstart
      exact ⟨Nat.le_succ place, fun m hmem => (h.within m hmem).2⟩
    · exact hnext
  · rename_i hstate
    split
    · exact hnext.withState _ (Or.inr (by rw [hstate]; rfl))
    · exact hnext.withState _ (Or.inl rfl)
  · rename_i seqStart buf hstate
    split
    · exact handleOsc_ordered codecs h (by rw [hstate]; rfl) buf
    · split
      · exact hnext.withState _ (Or.inr (by rw [hstate]; rfl))
      · split
        · exact hnext.withState _ (Or.inr (by rw [hstate]; rfl))
        · exact hnext.withState _ (Or.inl rfl)
  · rename_i seqStart buf hstate
    split
    · exact handleOsc_ordered codecs h (by rw [hstate]; rfl) buf
    · exact hnext.withState _ (Or.inl rfl)

theorem feedAll_ordered {place : ℕ} (h : Ordered s place) (bytes : List UInt8) :
    Ordered (s.feedAll codecs place bytes) (place + bytes.length) := by
  induction bytes generalizing s place with
  | nil => exact h
  | cons b bytes ih =>
    have hrest := ih (feed_ordered codecs h b)
    rw [List.length_cons, Nat.add_comm bytes.length 1, ← Nat.add_assoc]
    exact hrest

theorem ingest_ordered (h : Ordered s s.totalOffset) (chunk : List UInt8) :
    Ordered (s.ingest codecs chunk) (s.ingest codecs chunk).totalOffset := by
  have hfed := feedAll_ordered codecs h chunk
  obtain ⟨hmarkers, -, -, hstate⟩ := appendOutput_keeps (s.feedAll codecs s.totalOffset chunk) chunk
  rw [totalOffset_ingest, ingest_eq]
  refine ⟨fun m hmem => hfed.within m (hmarkers ▸ hmem), ?_, fun start hstart => ?_⟩
  · show List.Pairwise _ (appendOutput _ chunk).markers
    rw [hmarkers]
    exact hfed.inOrder
  · have hopened := hfed.opened start (by rw [← hstate]; exact hstart)
    exact ⟨hopened.1, fun m hmem => hopened.2 m (hmarkers ▸ hmem)⟩

end Integration

end Haruspex.Shell
