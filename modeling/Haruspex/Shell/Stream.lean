import Haruspex.Shell.Markers
import Haruspex.Shell.Ring

/-! The ring, the markers and the counts say of the stream what is in it. -/
namespace Haruspex.Shell
open Rust Ring
set_option autoImplicit false

/-! ## The two halves of the ring -/

/-- `slice_output`'s reading of the halves that `as_slices` gives. -/
def sliceHalves (a b : List UInt8) (first last : ℕ) : List UInt8 :=
  if first < a.length then
    (a.take (min last a.length)).drop first ++ if a.length < last then b.take (last - a.length) else []
  else (b.take (last - a.length)).drop (first - a.length)

theorem sliceHalves_eq (a b : List UInt8) {first last : ℕ} (h : first ≤ last) :
    sliceHalves a b first last = ((a ++ b).take last).drop first := by
  unfold sliceHalves
  rw [List.take_append, List.drop_append, List.length_take]
  split
  · rename_i hin
    have hzero : first - min last a.length = 0 := by omega
    rw [hzero, List.drop_zero]
    congr 1
    · obtain hle | hle := Nat.le_total last a.length
      · rw [Nat.min_eq_left hle]
      · rw [Nat.min_eq_right hle, List.take_of_length_le hle, List.take_of_length_le (Nat.le_refl _)]
    · split
      · rfl
      · rename_i hbefore
        have hnone : last - a.length = 0 := by omega
        rw [hnone, List.take_zero]
  · rename_i hafter
    have hmin : first - min last a.length = first - a.length := by omega
    have hnone : (a.take last).drop first = [] := List.drop_of_length_le (by rw [List.length_take]; omega)
    rw [hmin, hnone, List.nil_append]

namespace Integration

/-- `slice_output`, when the ring lies in two halves. -/
def sliceOutputHalves (s : Integration) (a b : List UInt8) (start stop : ℕ) : Option (List UInt8) :=
  if start < s.outputFirstOffset then none
  else if stop < start then none
  else if s.output.length < stop - s.outputFirstOffset then none
  else some (sliceHalves a b (start - s.outputFirstOffset) (stop - s.outputFirstOffset))

variable (codecs : Codecs) {s : Integration} {stream : List UInt8}

theorem sliceOutputHalves_eq {a b : List UInt8} (h : a ++ b = s.output) (start stop : ℕ) :
    s.sliceOutputHalves a b start stop = s.sliceOutput start stop := by
  unfold sliceOutputHalves sliceOutput
  split
  · rfl
  · split
    · rfl
    · split
      · rfl
      · rw [sliceHalves_eq a b (by omega), h]

/-- A slice is what the stream has in the range, if the ring has the range. -/
theorem sliceOutput_stream {capacity : ℕ} (h : Holds capacity stream s) (start stop : ℕ) :
    s.sliceOutput start stop =
      if s.outputFirstOffset ≤ start ∧ start ≤ stop ∧ stop ≤ stream.length then
        some ((stream.take stop).drop start)
      else none := by
  by_cases hrange : start ≤ stop ∧ stop ≤ stream.length
  · rw [sliceOutput_eq h hrange.1 hrange.2, h.first]
    by_cases hfirst : start < stream.length - capacity
    · rw [if_pos hfirst, if_neg (by omega)]
    · rw [if_neg hfirst, if_pos (by omega)]
      have hmax : max start (stream.length - capacity) = start := by omega
      rw [kept, hmax]
  · rw [if_neg (by omega)]
    unfold sliceOutput
    rw [h.output, h.first, length_newest]
    split
    · rfl
    · split
      · rfl
      · rw [if_pos (by omega)]

/-! ## What a marker stands for -/

/-- The payload of a marker. -/
def Names (codecs : Codecs) (payload : List UInt8) (m : Marker) : Prop :=
  ∃ text rest, fromUtf8 payload = some text ∧ splitTwo ';' text = ("133", rest) ∧
    markerKind (splitTwo ';' rest).1 = some m.kind ∧
    m.exitCode = (if m.kind = .outputEnd then parseI32 (splitTwo ';' rest).2 else none) ∧
    m.commandLine = (if m.kind = .outputStart then decodeClAttribute codecs (splitTwo ';' rest).2 else none)

theorem handleOsc_names (s : Integration) (payload : List UInt8) (seqStart seqEnd : ℕ) :
    (s.handleOsc codecs payload seqStart seqEnd).markers = s.markers ∨
      ∃ m : Marker, m.seqStart = seqStart ∧ m.seqEnd = seqEnd ∧ Names codecs payload m ∧
        s.handleOsc codecs payload seqStart seqEnd = s.pushMarker m := by
  unfold handleOsc
  cases htext : fromUtf8 payload with
  | none => exact .inl rfl
  | some text =>
    dsimp only
    split
    · rename_i hcode
      unfold handle133
      dsimp only
      cases hkind : markerKind (splitTwo ';' (splitTwo ';' text).2).1 with
      | none => exact .inl rfl
      | some kind =>
        have hsplit : splitTwo ';' text = ("133", (splitTwo ';' text).2) := Prod.ext hcode rfl
        exact .inr ⟨_, rfl, rfl, ⟨text, _, htext, hsplit, hkind, rfl, rfl⟩, rfl⟩
    · split
      · unfold handle7
        left
        split
        · rfl
        · dsimp only
          split <;> rfl
      · exact .inl rfl

/-! ## Where its bytes are -/

/-- The bytes between a sequence's opening and its terminator. -/
def Plain (payload : List UInt8) : Prop := ∀ b ∈ payload, b ≠ bel ∧ b ≠ esc

/-- The range of a marker has its own escape sequence in the stream. -/
def Spelled (codecs : Codecs) (stream : List UInt8) (m : Marker) : Prop :=
  m.seqEnd ≤ stream.length ∧ ∃ payload terminator, Plain payload ∧ Names codecs payload m ∧
    (terminator = [bel] ∨ terminator = [esc, 0x5C]) ∧
    (stream.take m.seqEnd).drop m.seqStart = [esc, 0x5D] ++ payload ++ terminator

/-- What the parser has read of a sequence is what the stream ends with. -/
def Reads (stream : List UInt8) : ParserState → Prop
  | .normal => True
  | .escSeen seqStart => seqStart ≤ stream.length ∧ stream.drop seqStart = [esc]
  | .oscPayload seqStart buf =>
    seqStart ≤ stream.length ∧ Plain buf ∧ stream.drop seqStart = [esc, 0x5D] ++ buf
  | .oscEsc seqStart buf =>
    seqStart ≤ stream.length ∧ Plain buf ∧ stream.drop seqStart = [esc, 0x5D] ++ buf ++ [esc]

theorem Spelled.append {m : Marker} (h : Spelled codecs stream m) (more : List UInt8) :
    Spelled codecs (stream ++ more) m := by
  obtain ⟨hend, payload, terminator, hplain, hnames, hterminator, hbytes⟩ := h
  refine ⟨by rw [List.length_append]; omega, payload, terminator, hplain, hnames, hterminator, ?_⟩
  rw [List.take_append_of_le_length hend]
  exact hbytes

theorem drop_snoc {seqStart : ℕ} {bytes : List UInt8} (h : seqStart ≤ stream.length) (hdrop : stream.drop seqStart = bytes)
    (b : UInt8) : (stream ++ [b]).drop seqStart = bytes ++ [b] := by
  rw [List.drop_append_of_le_length h, hdrop]

/-- Both of what the parser records and of what it is reading. -/
structure Parses (codecs : Codecs) (stream : List UInt8) (s : Integration) : Prop where
  spelled : ∀ m ∈ s.markers, Spelled codecs stream m
  reads : Reads stream s.state

theorem mem_pushMarker {m m' : Marker} (h : m' ∈ (s.pushMarker m).markers) : m' ∈ s.markers ∨ m' = m := by
  obtain h | h := List.mem_append.mp h
  · left
    split at h
    · exact List.mem_of_mem_tail h
    · exact h
  · exact .inr (List.mem_singleton.mp h)

/-- A payload that ends. -/
theorem parses_handleOsc (h : Parses codecs stream s) {seqStart : ℕ} {payload terminator : List UInt8} {b : UInt8}
    (hplain : Plain payload) (hterminator : terminator = [bel] ∨ terminator = [esc, 0x5C])
    (hbytes : (stream ++ [b]).drop seqStart = [esc, 0x5D] ++ payload ++ terminator) :
    Parses codecs (stream ++ [b])
      { s.handleOsc codecs payload seqStart (stream.length + 1) with state := .normal } := by
  refine ⟨fun m hm => ?_, trivial⟩
  obtain hsame | ⟨m', hstart, hend, hnames, hpush⟩ :=
    handleOsc_names codecs s payload seqStart (stream.length + 1)
  · exact (h.spelled m (hsame ▸ hm)).append codecs [b]
  · obtain hold | rfl := mem_pushMarker (by rw [← hpush]; exact hm)
    · exact (h.spelled m hold).append codecs [b]
    · refine ⟨by rw [List.length_append, hend]; rfl, payload, terminator, hplain, hnames, hterminator, ?_⟩
      rw [hend, hstart, List.take_of_length_le (by rw [List.length_append]; rfl), hbytes]

theorem feed_parses (h : Parses codecs stream s) (b : UInt8) :
    Parses codecs (stream ++ [b]) (s.feed codecs b stream.length) := by
  have hkeeps : ∀ m ∈ s.markers, Spelled codecs (stream ++ [b]) m :=
    fun m hm => (h.spelled m hm).append codecs [b]
  have hreads := h.reads
  have hlen : stream.length ≤ (stream ++ [b]).length := by rw [List.length_append]; omega
  unfold feed
  split
  · rename_i hstate
    split
    · rename_i hb
      refine ⟨hkeeps, hlen, ?_⟩
      rw [drop_snoc (Nat.le_refl _) List.drop_length, hb, List.nil_append]
    · exact ⟨hkeeps, by rw [hstate]; trivial⟩
  · rename_i seqStart hstate
    rw [hstate] at hreads
    split
    · rename_i hb
      refine ⟨hkeeps, by have := hreads.1; omega, by nofun, ?_⟩
      rw [drop_snoc hreads.1 hreads.2, hb]
      rfl
    · exact ⟨hkeeps, trivial⟩
  · rename_i seqStart buf hstate
    rw [hstate] at hreads
    obtain ⟨hstart, hplain, hdrop⟩ := hreads
    split
    · rename_i hb
      refine parses_handleOsc codecs h hplain (.inl rfl) ?_
      rw [drop_snoc hstart hdrop, hb]
    · rename_i hbel
      split
      · rename_i hb
        refine ⟨hkeeps, by omega, hplain, ?_⟩
        rw [drop_snoc hstart hdrop, hb]
      · rename_i hesc
        split
        · refine ⟨hkeeps, by omega, fun c hc => ?_, ?_⟩
          · obtain hc | hc := List.mem_append.mp hc
            · exact hplain c hc
            · rw [List.mem_singleton.mp hc]
              exact ⟨hbel, hesc⟩
          · rw [drop_snoc hstart hdrop, List.append_assoc]
        · exact ⟨hkeeps, trivial⟩
  · rename_i seqStart buf hstate
    rw [hstate] at hreads
    obtain ⟨hstart, hplain, hdrop⟩ := hreads
    split
    · rename_i hb
      refine parses_handleOsc codecs h hplain (.inr rfl) ?_
      rw [drop_snoc hstart hdrop, hb, List.append_assoc]
      rfl
    · exact ⟨hkeeps, trivial⟩

theorem feedAll_parses (h : Parses codecs stream s) (bytes : List UInt8) :
    Parses codecs (stream ++ bytes) (s.feedAll codecs stream.length bytes) := by
  induction bytes generalizing s stream with
  | nil =>
    rw [List.append_nil]
    exact h
  | cons b bytes ih =>
    have hrest := ih (feed_parses codecs h b)
    rw [List.append_assoc, List.length_append] at hrest
    exact hrest

theorem ingest_parses (h : Parses codecs stream s) (htotal : s.totalOffset = stream.length) (chunk : List UInt8) :
    Parses codecs (stream ++ chunk) (s.ingest codecs chunk) := by
  have hfed := feedAll_parses codecs h chunk
  rw [← htotal] at hfed
  obtain ⟨hmarkers, -, -, hstate⟩ := appendOutput_keeps (s.feedAll codecs s.totalOffset chunk) chunk
  rw [ingest_eq]
  exact ⟨fun m hm => hfed.spelled m (hmarkers ▸ hm), (hstate ▸ hfed.reads : Reads _ _)⟩

/-- A marker's range is not empty. -/
theorem Spelled.lt {m : Marker} (h : Spelled codecs stream m) : m.seqStart < m.seqEnd := by
  obtain ⟨-, payload, terminator, -, -, -, hbytes⟩ := h
  by_contra hle
  have hnil : (stream.take m.seqEnd).drop m.seqStart = [] := List.drop_of_length_le (by
    rw [List.length_take]
    omega)
  rw [hnil] at hbytes
  simp at hbytes

/-! ## All of a stream -/

/-- What the state says of a stream that was taken in. -/
structure Agrees (codecs : Codecs) (capacity : ℕ) (stream : List UInt8) (s : Integration) : Prop where
  ring : s.output = stream.drop (stream.length - capacity)
  length : s.output.length = min stream.length capacity
  total : s.totalOffset = stream.length
  first : s.outputFirstOffset + s.output.length = s.totalOffset
  spelled : ∀ m ∈ s.markers, Spelled codecs stream m
  apart : s.markers.Pairwise (fun m m' => m.seqStart < m.seqEnd ∧ m.seqEnd ≤ m'.seqStart)
  slices : ∀ a b, a ++ b = s.output → ∀ start stop, s.sliceOutputHalves a b start stop =
    if s.outputFirstOffset ≤ start ∧ start ≤ stop ∧ stop ≤ s.totalOffset then
      some ((stream.take stop).drop start)
    else none

/-- However a stream comes in, the state is the same, and says of the stream what is in it. -/
theorem ingestAll_agrees (outputCapacity markerCapacity : ℕ) (hpos : 0 < outputCapacity)
    (chunks : List (List UInt8)) :
    (∀ chunks', chunks'.flatten = chunks.flatten →
      ingestAll codecs (withCapacity outputCapacity markerCapacity) chunks' =
        ingestAll codecs (withCapacity outputCapacity markerCapacity) chunks) ∧
    Agrees codecs outputCapacity chunks.flatten
      (ingestAll codecs (withCapacity outputCapacity markerCapacity) chunks) := by
  constructor
  · intro chunks' hsame
    rw [ingestAll_eq, ingestAll_eq, hsame]
  · rw [ingestAll_eq]
    generalize chunks.flatten = stream
    have hnew : Holds outputCapacity [] (withCapacity outputCapacity markerCapacity) :=
      ⟨List.drop_nil.symm, rfl, (Nat.zero_sub outputCapacity).symm⟩
    have hholds := ingest_holds codecs hpos hnew stream
    have hparses := @ingest_parses codecs (withCapacity outputCapacity markerCapacity) []
      ⟨by nofun, trivial⟩ rfl stream
    have hordered := ingest_ordered codecs (s := withCapacity outputCapacity markerCapacity)
      ⟨by nofun, .nil, by nofun⟩ stream
    have htotal : ((withCapacity outputCapacity markerCapacity).ingest codecs stream).totalOffset = stream.length := by
      rw [totalOffset_ingest]
      exact Nat.zero_add stream.length
    rw [List.nil_append] at hholds hparses
    refine ⟨hholds.output, ?_, htotal, ?_, hparses.spelled, ?_, ?_⟩
    · rw [hholds.output, length_newest]
    · rw [hholds.first, hholds.output, length_newest, htotal]
      omega
    · refine hordered.inOrder.imp_of_mem fun hm _ hle => ?_
      exact ⟨(hparses.spelled _ hm).lt, hle⟩
    · intro a b hhalves start stop
      rw [sliceOutputHalves_eq hhalves, sliceOutput_stream hholds, htotal]

/-- A prompt that comes in two parts, through a ring of four bytes. -/
theorem ingestAll_agrees_prompt :
    (ingestAll noCodecs (withCapacity 4 8) [[0x1B, 0x5D, 0x31, 0x33], [0x33, 0x3B, 0x41, 0x07, 0x24]]).output =
      [0x3B, 0x41, 0x07, 0x24] := by
  have hring := (ingestAll_agrees noCodecs 4 8 (by decide)
    [[0x1B, 0x5D, 0x31, 0x33], [0x33, 0x3B, 0x41, 0x07, 0x24]]).2.ring
  exact hring

end Integration

end Haruspex.Shell
