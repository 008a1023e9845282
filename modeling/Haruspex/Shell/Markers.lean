import Haruspex.Shell.Chunks

/-! A marker that comes after any output: where the parser records it, and where that output takes its
first byte. -/
namespace Haruspex.Shell
open Rust
set_option autoImplicit false

/-! ## Marker sequences -/

/-- The letter that stands for a kind of marker. -/
def MarkerKind.letter (kind : MarkerKind) : UInt8 :=
  match kind with
  | .promptStart => 0x41
  | .commandStart => 0x42
  | .outputStart => 0x43
  | .outputEnd => 0x44

/-- `133;K`, with the data there is after it. -/
def markerPayload (kind : MarkerKind) (data : Option (List UInt8)) : List UInt8 :=
  [0x31, 0x33, 0x33, 0x3B, kind.letter] ++ data.elim [] (fun bytes => 0x3B :: bytes)

structure MarkerSequence where
  kind : MarkerKind
  data : Option (List UInt8)
  /-- It ends with BEL, not with ESC and a backslash. -/
  bell : Bool
  printable : ∀ bytes, data = some bytes → ∀ b ∈ bytes, 0x20 ≤ b ∧ b ≠ 0x7F
  within : (markerPayload kind data).length ≤ maxOscPayload

namespace MarkerSequence

def payload (m : MarkerSequence) : List UInt8 := markerPayload m.kind m.data

def terminator (m : MarkerSequence) : List UInt8 :=
  if m.bell then [Integration.bel] else [Integration.esc, 0x5C]

/-- What a shell writes. -/
def bytes (m : MarkerSequence) : List UInt8 :=
  [Integration.esc, 0x5D] ++ m.payload ++ m.terminator

theorem payload_plain (m : MarkerSequence) :
    ∀ b ∈ m.payload, b ≠ Integration.esc ∧ b ≠ Integration.bel := by
  intro b hb
  have hplain (x : UInt8) (h : 0x20 ≤ x) : x ≠ Integration.esc ∧ x ≠ Integration.bel := by
    constructor <;> rintro rfl <;> exact absurd h (by decide)
  apply hplain
  rw [payload, markerPayload, List.mem_append] at hb
  rcases hb with hfront | hdata
  · have hletter : 0x20 ≤ m.kind.letter := by cases m.kind <;> decide
    simp only [List.mem_cons, List.not_mem_nil, or_false] at hfront
    rcases hfront with rfl | rfl | rfl | rfl | rfl
    any_goals decide
    exact hletter
  · cases hdatum : m.data with
    | none =>
      rw [hdatum] at hdata
      cases hdata
    | some bytes =>
      rw [hdatum, Option.elim_some, List.mem_cons] at hdata
      rcases hdata with rfl | hmem
      · decide
      · exact (m.printable bytes hdatum b hmem).1

end MarkerSequence

namespace Integration

variable (codecs : Codecs) {s : Integration}

/-! ## What is recorded -/

/-- A marker of a kind was recorded between two states. -/
structure Recorded (kind : MarkerKind) (s s' : Integration) : Prop where
  counted : s'.markerTotal = s.markerTotal + 1
  ended : kind = .outputEnd → s'.outputEndTotal = s.outputEndTotal + 1
  last : s'.markers.getLast?.map Marker.kind = some kind

theorem recorded_congr {kind : MarkerKind} {s s' s'' : Integration} (hmarkers : s'.markers = s''.markers)
    (htotal : s'.markerTotal = s''.markerTotal) (hended : s'.outputEndTotal = s''.outputEndTotal) :
    Recorded kind s s' ↔ Recorded kind s s'' := by
  constructor
  · rintro ⟨hcounted, hends, hlast⟩
    exact ⟨htotal ▸ hcounted, fun hend => hended ▸ hends hend, hmarkers ▸ hlast⟩
  · rintro ⟨hcounted, hends, hlast⟩
    exact ⟨htotal ▸ hcounted, fun hend => hended ▸ hends hend, hmarkers ▸ hlast⟩

theorem letter_kind (kind : MarkerKind) :
    markerKind (String.ofList [Char.ofNat kind.letter.toNat]) = some kind := by
  cases kind <;> decide

/-- The text of a marker's payload, and its parts. -/
theorem payload_text (m : MarkerSequence) {text : String} (h : fromUtf8 m.payload = some text) :
    ∃ rest, splitTwo ';' text = ("133", rest) ∧ markerKind (splitTwo ';' rest).1 = some m.kind := by
  have hletter : m.kind.letter < 0x80 ∧ Char.ofNat m.kind.letter.toNat ≠ ';' := by
    cases m.kind <;> decide
  have hfront : ∀ b ∈ [0x31, 0x33, 0x33, 0x3B, m.kind.letter], b < 0x80 := by
    simp [hletter.1]
  rw [MarkerSequence.payload, markerPayload, fromUtf8_append_ascii hfront,
    Option.map_eq_some_iff] at h
  obtain ⟨data, hdata, rfl⟩ := h
  refine ⟨String.ofList (Char.ofNat m.kind.letter.toNat :: data.toList), ?_, ?_⟩
  · simp [splitTwo]
  · have hstop : data.toList.takeWhile (fun c => c ≠ ';') = [] := by
      cases hdatum : m.data with
      | none =>
        rw [hdatum] at hdata
        obtain rfl : "" = data := Option.some.inj hdata
        rfl
      | some bytes =>
        rw [hdatum, Option.elim_some, ← List.singleton_append,
          fromUtf8_append_ascii (List.forall_mem_singleton.mpr (by decide)), Option.map_eq_some_iff] at hdata
        obtain ⟨more, -, rfl⟩ := hdata
        simp
    have hfirst : (splitTwo ';' (String.ofList (Char.ofNat m.kind.letter.toNat :: data.toList))).1 =
        String.ofList [Char.ofNat m.kind.letter.toNat] := by
      rw [splitTwo, String.toList_ofList, List.takeWhile_cons_of_pos (by simpa using hletter.2),
        hstop]
    rw [hfirst]
    exact letter_kind m.kind

/-- What the payload of a marker does, if it is text. -/
theorem handleOsc_marker (m : MarkerSequence) (s : Integration) (seqStart seqEnd : ℕ) :
    (fromUtf8 m.payload = none ∧ s.handleOsc codecs m.payload seqStart seqEnd = s) ∨
      ∃ text marker, fromUtf8 m.payload = some text ∧ marker.kind = m.kind ∧
        s.handleOsc codecs m.payload seqStart seqEnd = s.pushMarker marker := by
  unfold handleOsc
  cases htext : fromUtf8 m.payload with
  | none => exact Or.inl ⟨rfl, rfl⟩
  | some text =>
    obtain ⟨rest, hcode, hkind⟩ := payload_text m htext
    refine Or.inr ⟨text, ?_⟩
    simp only [hcode, if_true, handle133, hkind]
    exact ⟨_, trivial, rfl, rfl⟩

/-! ## Bytes that go by -/

theorem feedAll_normal (h : s.state = .normal) {bytes : List UInt8} (hplain : ∀ b ∈ bytes, b ≠ esc)
    (absOffset : ℕ) : s.feedAll codecs absOffset bytes = s := by
  induction bytes generalizing absOffset with
  | nil => rfl
  | cons b bytes ih =>
    have hfeed : s.feed codecs b absOffset = s := by
      simp [feed, h, hplain b List.mem_cons_self]
    rw [feedAll, hfeed]
    exact ih (fun b' hmem => hplain b' (List.mem_cons_of_mem _ hmem)) (absOffset + 1)

def withState (s : Integration) (state : ParserState) : Integration := { s with state := state }

theorem handleOsc_withState (payload : List UInt8) (seqStart seqEnd : ℕ) (state : ParserState) :
    (s.withState state).handleOsc codecs payload seqStart seqEnd =
      (s.handleOsc codecs payload seqStart seqEnd).withState state := by
  unfold handleOsc
  split
  · rfl
  · dsimp only
    split
    · unfold handle133
      dsimp only
      split <;> rfl
    · split
      · unfold handle7
        split
        · rfl
        · dsimp only
          split <;> rfl
      · rfl

/-- The terminator of a sequence. -/
theorem feedAll_terminator (m : MarkerSequence) (seqStart : ℕ) (buf : List UInt8) (absOffset : ℕ) :
    ∃ seqEnd, (s.withState (.oscPayload seqStart buf)).feedAll codecs absOffset m.terminator =
      (s.handleOsc codecs buf seqStart seqEnd).withState .normal := by
  have hhandle := handleOsc_withState codecs (s := s) buf seqStart
  unfold MarkerSequence.terminator
  cases m.bell with
  | true =>
    refine ⟨absOffset + 1, ?_⟩
    show withState (handleOsc codecs (s.withState _) buf seqStart _) .normal = _
    rw [hhandle]
    rfl
  | false =>
    refine ⟨absOffset + 1 + 1, ?_⟩
    show withState (handleOsc codecs (s.withState _) buf seqStart _) .normal = _
    rw [hhandle]
    rfl

theorem feedAll_payload {bytes : List UInt8} (hplain : ∀ b ∈ bytes, b ≠ esc ∧ b ≠ bel) (seqStart : ℕ)
    (buf : List UInt8) (hlen : buf.length + bytes.length ≤ maxOscPayload) (absOffset : ℕ) :
    (s.withState (.oscPayload seqStart buf)).feedAll codecs absOffset bytes =
      s.withState (.oscPayload seqStart (buf ++ bytes)) := by
  induction bytes generalizing buf absOffset with
  | nil => rw [List.append_nil]; rfl
  | cons b bytes ih =>
    obtain ⟨hesc, hbel⟩ := hplain b List.mem_cons_self
    rw [List.length_cons] at hlen
    have hfeed : (s.withState (.oscPayload seqStart buf)).feed codecs b absOffset =
        s.withState (.oscPayload seqStart (buf ++ [b])) := by
      have hroom : buf.length < maxOscPayload := by omega
      simp [feed, withState, hesc, hbel, hroom]
    rw [feedAll, hfeed, ih (fun b' hmem => hplain b' (List.mem_cons_of_mem _ hmem)),
      List.append_assoc]
    · rfl
    · rw [List.length_append, List.length_singleton]
      omega

/-- In the normal state, a whole sequence ends with its payload handled. -/
theorem feedAll_marker (h : s.state = .normal) (m : MarkerSequence) (absOffset : ℕ) :
    ∃ seqEnd, s.feedAll codecs absOffset m.bytes =
      (s.handleOsc codecs m.payload absOffset seqEnd).withState .normal := by
  have hstart : s.feedAll codecs absOffset [esc, 0x5D] =
      s.withState (.oscPayload absOffset []) := by
    simp [feedAll, feed, h, withState]
  have hwithin : ([] : List UInt8).length + m.payload.length ≤ maxOscPayload := by
    rw [List.length_nil, Nat.zero_add]
    exact m.within
  rw [MarkerSequence.bytes, feedAll_append, feedAll_append, hstart,
    feedAll_payload codecs m.payload_plain absOffset [] hwithin, List.nil_append]
  exact feedAll_terminator codecs m absOffset m.payload _

/-- In any other state the sequence is taken apart, and nothing is left of it. -/
theorem feedAll_missed (h : s.state ≠ .normal) (m : MarkerSequence) (absOffset : ℕ) :
    s.feedAll codecs absOffset m.bytes = s.withState .normal := by
  have hstart : s.feedAll codecs absOffset [esc, 0x5D] = s.withState .normal := by
    cases hstate : s.state with
    | normal => exact absurd hstate h
    | escSeen seqStart => simp [feedAll, feed, hstate, withState, esc]
    | oscPayload seqStart buf => simp [feedAll, feed, hstate, withState, esc, bel]
    | oscEsc seqStart buf => simp [feedAll, feed, hstate, withState, esc]
  rw [MarkerSequence.bytes, feedAll_append, feedAll_append, hstart,
    feedAll_normal codecs rfl fun b hb => (m.payload_plain b hb).1, MarkerSequence.terminator]
  cases m.bell with
  | true => simp [feedAll, feed, withState, esc, bel]
  | false => simp [feedAll, feed, withState, esc]

/-! ## Counts -/

/-- Of the markers counted, some ended a command. -/
def Counted (s : Integration) : Prop := s.outputEndTotal ≤ s.markerTotal

theorem pushMarker_counted (h : s.Counted) (marker : Marker) : (s.pushMarker marker).Counted := by
  unfold Counted at h
  unfold Counted pushMarker saturatingSucc
  dsimp only
  cases marker.kind <;> simp only [reduceCtorEq, if_true, if_false] <;> split <;> (try split) <;> omega

theorem handleOsc_counted (h : s.Counted) (payload : List UInt8) (seqStart seqEnd : ℕ) :
    (s.handleOsc codecs payload seqStart seqEnd).Counted := by
  unfold handleOsc
  split
  · exact h
  · dsimp only
    split
    · unfold handle133
      dsimp only
      split
      · exact h
      · exact pushMarker_counted h _
    · split
      · unfold handle7
        split
        · exact h
        · dsimp only
          split
          · exact h
          · exact h
      · exact h

theorem feed_counted (h : s.Counted) (b : UInt8) (absOffset : ℕ) :
    (s.feed codecs b absOffset).Counted := by
  unfold feed
  split
  · split
    · exact h
    · exact h
  · split
    · exact h
    · exact h
  · rename_i seqStart buf _
    split
    · exact handleOsc_counted codecs h buf seqStart (absOffset + 1)
    · split
      · exact h
      · split
        · exact h
        · exact h
  · rename_i seqStart buf _
    split
    · exact handleOsc_counted codecs h buf seqStart (absOffset + 1)
    · exact h

theorem feedAll_counted (h : s.Counted) (absOffset : ℕ) (bytes : List UInt8) :
    (s.feedAll codecs absOffset bytes).Counted := by
  induction bytes generalizing s absOffset with
  | nil => exact h
  | cons b bytes ih => exact ih (feed_counted codecs h b absOffset) (absOffset + 1)

/-- What a chunk does to the markers, its bytes do. -/
theorem ingest_keeps (s : Integration) (chunk : List UInt8) :
    (s.ingest codecs chunk).markers = (s.feedAll codecs s.totalOffset chunk).markers ∧
      (s.ingest codecs chunk).markerTotal = (s.feedAll codecs s.totalOffset chunk).markerTotal ∧
      (s.ingest codecs chunk).outputEndTotal =
        (s.feedAll codecs s.totalOffset chunk).outputEndTotal := by
  obtain ⟨hmarkers, htotal, hended, -⟩ :=
    appendOutput_keeps (s.feedAll codecs s.totalOffset chunk) chunk
  rw [ingest_eq]
  exact ⟨hmarkers, htotal, hended⟩

theorem ingest_counted (h : s.Counted) (chunk : List UInt8) : (s.ingest codecs chunk).Counted := by
  obtain ⟨-, htotal, hended⟩ := ingest_keeps codecs s chunk
  unfold Counted
  rw [htotal, hended]
  exact feedAll_counted codecs h s.totalOffset chunk

/-! ## Markers after any output -/

theorem recorded_iff (h : s.Counted) (m : MarkerSequence) (absOffset : ℕ) :
    Recorded m.kind s (s.feedAll codecs absOffset m.bytes) ↔
      s.state = .normal ∧ (fromUtf8 m.payload).isSome = true ∧ s.markerTotal < u64Max := by
  by_cases hnormal : s.state = .normal
  · obtain ⟨seqEnd, hfed⟩ := feedAll_marker codecs hnormal m absOffset
    rw [hfed]
    rcases handleOsc_marker codecs m s absOffset seqEnd with ⟨htext, hsame⟩ |
      ⟨text, marker, htext, hkind, hpush⟩
    · rw [hsame, htext]
      refine ⟨fun hrecorded => ?_, fun hwhen => absurd hwhen.2.1 (by decide)⟩
      have hcounted : s.markerTotal = s.markerTotal + 1 := hrecorded.counted
      omega
    · rw [hpush, htext]
      have htotal : ((s.pushMarker marker).withState .normal).markerTotal =
          saturatingSucc s.markerTotal := rfl
      have hended : ((s.pushMarker marker).withState .normal).outputEndTotal =
          if marker.kind = .outputEnd then saturatingSucc s.outputEndTotal else s.outputEndTotal :=
        rfl
      constructor
      · intro hrecorded
        have hcounted := hrecorded.counted
        rw [htotal, saturatingSucc] at hcounted
        refine ⟨hnormal, rfl, ?_⟩
        split at hcounted
        · assumption
        · omega
      · rintro ⟨-, -, hroom⟩
        have hroom' : s.outputEndTotal < u64Max := Nat.lt_of_le_of_lt h hroom
        refine ⟨by rw [htotal, saturatingSucc, if_pos hroom], fun hend => ?_, ?_⟩
        · rw [hended, hkind, if_pos hend, saturatingSucc, if_pos hroom']
        · show (_ ++ [marker]).getLast?.map Marker.kind = _
          rw [List.getLast?_append, List.getLast?_singleton, Option.some_or, Option.map_some, hkind]
  · rw [feedAll_missed codecs hnormal m absOffset]
    refine ⟨fun hrecorded => ?_, fun hwhen => absurd hwhen.1 hnormal⟩
    have hcounted : s.markerTotal = s.markerTotal + 1 := hrecorded.counted
    omega

/-- A marker that comes after some output, in whatever chunks, is recorded just when that output left
nothing open. -/
theorem marker_recorded_iff (outputCapacity markerCapacity : ℕ) (before : List UInt8)
    (m : MarkerSequence) (chunks : List (List UInt8)) (h : chunks.flatten = before ++ m.bytes) :
    Recorded m.kind ((withCapacity outputCapacity markerCapacity).ingest codecs before)
        ((withCapacity outputCapacity markerCapacity).ingestAll codecs chunks) ↔
      ((withCapacity outputCapacity markerCapacity).ingest codecs before).state = .normal ∧
        (fromUtf8 m.payload).isSome = true ∧
        ((withCapacity outputCapacity markerCapacity).ingest codecs before).markerTotal < u64Max := by
  have hnew : (withCapacity outputCapacity markerCapacity).Counted := Nat.le_refl 0
  have hcounted := ingest_counted codecs hnew before
  rw [ingestAll_eq, h, ingest_append]
  generalize (withCapacity outputCapacity markerCapacity).ingest codecs before = s at hcounted ⊢
  obtain ⟨hmarkers, htotal, hended⟩ := ingest_keeps codecs s m.bytes
  rw [← recorded_iff codecs hcounted m s.totalOffset]
  exact recorded_congr hmarkers htotal hended

/-- The marker of a command that ended with 0. -/
def commandEnded : MarkerSequence where
  kind := .outputEnd
  data := some [0x30]
  bell := true
  printable := by simp
  within := by decide

def noCodecs : Codecs := ⟨fun _ => none, fun _ => none⟩

theorem marker_recorded_iff_ended :
    Recorded .outputEnd (new.ingest noCodecs [0x6F, 0x6B])
      (new.ingestAll noCodecs [[0x6F], [0x6B, 0x1B], [0x5D, 0x31, 0x33, 0x33, 0x3B, 0x44],
        [0x3B, 0x30, 0x07]]) :=
  (marker_recorded_iff noCodecs defaultOutputCapacity defaultMarkerCapacity [0x6F, 0x6B] commandEnded
    [[0x6F], [0x6B, 0x1B], [0x5D, 0x31, 0x33, 0x33, 0x3B, 0x44], [0x3B, 0x30, 0x07]]
    (by decide)).mpr (by decide)

/-- An ESC of its own, and the marker after it is missed. -/
theorem marker_missed :
    ¬ ∀ (codecs : Codecs) (outputCapacity markerCapacity : ℕ) (before : List UInt8)
      (m : MarkerSequence) (chunks : List (List UInt8)), chunks.flatten = before ++ m.bytes →
        Recorded m.kind ((withCapacity outputCapacity markerCapacity).ingest codecs before)
          ((withCapacity outputCapacity markerCapacity).ingestAll codecs chunks) := by
  intro h
  have hcounted := (h noCodecs 64 64 [esc] commandEnded [[esc], commandEnded.bytes] (by decide)).counted
  exact absurd hcounted (by decide)

end Integration

end Haruspex.Shell
