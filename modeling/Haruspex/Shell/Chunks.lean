import Haruspex.Shell.Integration

/-! The parser does not see how its input is cut into chunks. -/
namespace Haruspex.Shell.Integration
set_option autoImplicit false

variable (codecs : Codecs) {s : Integration}

/-! ## What a byte leaves alone -/

/-- The ring of output and the count of bytes, which no byte of a sequence depends on. -/
def place (s : Integration) (output : List UInt8) (capacity first total : ℕ) : Integration :=
  { s with
    output := output
    outputCapacity := capacity
    outputFirstOffset := first
    totalOffset := total }

theorem handleOsc_place (payload : List UInt8) (seqStart seqEnd : ℕ) (output : List UInt8)
    (capacity first total : ℕ) :
    (s.place output capacity first total).handleOsc codecs payload seqStart seqEnd =
      (s.handleOsc codecs payload seqStart seqEnd).place output capacity first total := by
  unfold handleOsc
  split
  · rfl
  · dsimp only
    split
    · unfold handle133
      dsimp only
      split <;> rfl
    · split
      · unfold handle7
        split
        · rfl
        · dsimp only
          split <;> rfl
      · rfl

theorem feed_place (b : UInt8) (absOffset : ℕ) (output : List UInt8)
    (capacity first total : ℕ) :
    (s.place output capacity first total).feed codecs b absOffset =
      (s.feed codecs b absOffset).place output capacity first total := by
  have hstate : (s.place output capacity first total).state = s.state := rfl
  unfold feed
  rw [hstate]
  cases s.state with
  | normal =>
    dsimp only
    split <;> rfl
  | escSeen seqStart =>
    dsimp only
    split <;> rfl
  | oscPayload seqStart buf =>
    dsimp only
    rw [handleOsc_place]
    split
    · rfl
    · split
      · rfl
      · split <;> rfl
  | oscEsc seqStart buf =>
    dsimp only
    rw [handleOsc_place]
    split <;> rfl

theorem feedAll_place (bytes : List UInt8) (absOffset : ℕ) (output : List UInt8)
    (capacity first total : ℕ) :
    (s.place output capacity first total).feedAll codecs absOffset bytes =
      (s.feedAll codecs absOffset bytes).place output capacity first total := by
  induction bytes generalizing s absOffset with
  | nil => rfl
  | cons b bytes ih =>
    unfold feedAll
    rw [feed_place, ih]

/-- Bytes leave the ring and the count as they are. -/
theorem feedAll_ring (s : Integration) (absOffset : ℕ) (bytes : List UInt8) :
    (s.feedAll codecs absOffset bytes).output = s.output ∧
      (s.feedAll codecs absOffset bytes).outputCapacity = s.outputCapacity ∧
      (s.feedAll codecs absOffset bytes).outputFirstOffset = s.outputFirstOffset ∧
      (s.feedAll codecs absOffset bytes).totalOffset = s.totalOffset := by
  have h := feedAll_place codecs (s := s) bytes absOffset s.output s.outputCapacity
    s.outputFirstOffset s.totalOffset
  have hself : s.place s.output s.outputCapacity s.outputFirstOffset s.totalOffset = s := rfl
  rw [hself] at h
  rw [h]
  exact ⟨rfl, rfl, rfl, rfl⟩

/-! ## The ring -/

theorem feedAll_pushOutput (s : Integration) (b : UInt8) (absOffset : ℕ) (bytes : List UInt8) :
    (s.pushOutput b).feedAll codecs absOffset bytes =
      (s.feedAll codecs absOffset bytes).pushOutput b := by
  obtain ⟨houtput, hcapacity, hfirst, htotal⟩ := feedAll_ring codecs s absOffset bytes
  unfold pushOutput
  rw [houtput, hcapacity, hfirst]
  split
  · have h := feedAll_place codecs (s := s) bytes absOffset (s.output.tail ++ [b])
      s.outputCapacity (s.outputFirstOffset + 1) s.totalOffset
    exact h.trans (by rw [place, ← hcapacity, ← htotal])
  · have h := feedAll_place codecs (s := s) bytes absOffset (s.output ++ [b])
      s.outputCapacity s.outputFirstOffset s.totalOffset
    exact h.trans (by rw [place, ← hcapacity, ← hfirst, ← htotal])

theorem feedAll_appendOutput (s : Integration) (chunk : List UInt8) (absOffset : ℕ)
    (bytes : List UInt8) :
    (s.appendOutput chunk).feedAll codecs absOffset bytes =
      (s.feedAll codecs absOffset bytes).appendOutput chunk := by
  unfold appendOutput
  induction chunk generalizing s with
  | nil => rfl
  | cons b chunk ih => rw [List.foldl_cons, List.foldl_cons, ih, feedAll_pushOutput]

theorem appendOutput_append (s : Integration) (a b : List UInt8) :
    s.appendOutput (a ++ b) = (s.appendOutput a).appendOutput b :=
  List.foldl_append

theorem totalOffset_appendOutput (s : Integration) (chunk : List UInt8) :
    (s.appendOutput chunk).totalOffset = s.totalOffset := by
  unfold appendOutput
  induction chunk generalizing s with
  | nil => rfl
  | cons b chunk ih =>
    rw [List.foldl_cons, ih, pushOutput]
    split <;> rfl

/-- Output that is kept is not parsed again. -/
theorem appendOutput_keeps (s : Integration) (chunk : List UInt8) :
    (s.appendOutput chunk).markers = s.markers ∧ (s.appendOutput chunk).markerTotal = s.markerTotal ∧
      (s.appendOutput chunk).outputEndTotal = s.outputEndTotal ∧
      (s.appendOutput chunk).state = s.state := by
  unfold appendOutput
  induction chunk generalizing s with
  | nil => exact ⟨rfl, rfl, rfl, rfl⟩
  | cons b chunk ih =>
    obtain ⟨hmarkers, htotal, hended, hstate⟩ := ih (s.pushOutput b)
    rw [List.foldl_cons, hmarkers, htotal, hended, hstate, pushOutput]
    split <;> exact ⟨rfl, rfl, rfl, rfl⟩

/-! ## The count of bytes -/

def withTotal (s : Integration) (total : ℕ) : Integration := { s with totalOffset := total }

theorem feedAll_withTotal (s : Integration) (total absOffset : ℕ) (bytes : List UInt8) :
    (s.withTotal total).feedAll codecs absOffset bytes =
      (s.feedAll codecs absOffset bytes).withTotal total := by
  obtain ⟨houtput, hcapacity, hfirst, -⟩ := feedAll_ring codecs s absOffset bytes
  have h := feedAll_place codecs (s := s) bytes absOffset s.output s.outputCapacity
    s.outputFirstOffset total
  exact h.trans (by rw [place, withTotal, ← houtput, ← hcapacity, ← hfirst])

theorem appendOutput_withTotal (s : Integration) (chunk : List UInt8) (total : ℕ) :
    (s.withTotal total).appendOutput chunk = (s.appendOutput chunk).withTotal total := by
  unfold appendOutput
  induction chunk generalizing s with
  | nil => rfl
  | cons b chunk ih =>
    have hpush : (s.withTotal total).pushOutput b = (s.pushOutput b).withTotal total := by
      unfold pushOutput withTotal
      dsimp only
      split <;> rfl
    rw [List.foldl_cons, List.foldl_cons, hpush, ih]

/-! ## Chunks -/

theorem feedAll_append (s : Integration) (absOffset : ℕ) (a b : List UInt8) :
    s.feedAll codecs absOffset (a ++ b) =
      (s.feedAll codecs absOffset a).feedAll codecs (absOffset + a.length) b := by
  induction a generalizing s absOffset with
  | nil => rfl
  | cons x a ih =>
    rw [List.cons_append, feedAll, ih, feedAll, List.length_cons]
    congr 1
    omega

theorem ingest_eq (s : Integration) (chunk : List UInt8) :
    s.ingest codecs chunk =
      ((s.feedAll codecs s.totalOffset chunk).appendOutput chunk).withTotal
        (s.totalOffset + chunk.length) := by
  unfold ingest
  dsimp only
  rw [totalOffset_appendOutput, (feedAll_ring codecs s s.totalOffset chunk).2.2.2]
  rfl

theorem ingest_append (s : Integration) (a b : List UInt8) :
    s.ingest codecs (a ++ b) = (s.ingest codecs a).ingest codecs b := by
  rw [ingest_eq codecs s (a ++ b), ingest_eq codecs s a, ingest_eq, feedAll_withTotal, appendOutput_withTotal,
    feedAll_appendOutput]
  have htotal (t : Integration) (total : ℕ) : (t.withTotal total).totalOffset = total := rfl
  rw [htotal, ← feedAll_append, ← appendOutput_append, List.length_append, Nat.add_assoc]
  rfl

/-- A stream as it comes in, chunk by chunk. -/
def ingestAll (s : Integration) (chunks : List (List UInt8)) : Integration :=
  chunks.foldl (ingest codecs) s

/-- However a stream is cut, the parser ends as if it came in one piece. -/
theorem ingestAll_eq (s : Integration) (chunks : List (List UInt8)) :
    ingestAll codecs s chunks = s.ingest codecs chunks.flatten := by
  unfold ingestAll
  induction chunks generalizing s with
  | nil => rfl
  | cons chunk chunks ih => rw [List.foldl_cons, ih, List.flatten_cons, ingest_append]

end Haruspex.Shell.Integration
