import Mathlib.Data.List.Basic

/-! A ring that keeps the last entries of a stream. -/
namespace Haruspex.Ring
set_option autoImplicit false

variable {A : Type}

/-- The entries of a stream that a ring of some capacity still has. -/
def newest (capacity : ℕ) (stream : List A) : List A := stream.drop (stream.length - capacity)

/-- One more entry, and the oldest goes when the ring is full. -/
def push (capacity : ℕ) (ring : List A) (a : A) : List A :=
  if ring.length = capacity then ring.tail ++ [a] else ring ++ [a]

theorem length_newest (capacity : ℕ) (stream : List A) :
    (newest capacity stream).length = min stream.length capacity := by
  rw [newest, List.length_drop]
  omega

/-- What a ring has is what is left of the stream. -/
theorem push_newest {capacity : ℕ} (h : 0 < capacity) (stream : List A) (a : A) :
    push capacity (newest capacity stream) a = newest capacity (stream ++ [a]) := by
  unfold push
  rw [length_newest]
  unfold newest
  rw [List.length_append, List.length_singleton]
  split
  · have hone : stream.length + 1 - capacity = stream.length - capacity + 1 := by omega
    have hwithin : stream.length - capacity + 1 ≤ stream.length := by omega
    rw [hone, List.tail_drop, List.drop_append_of_le_length hwithin]
  · have hnone : stream.length + 1 - capacity = 0 := by omega
    have hnone' : stream.length - capacity = 0 := by omega
    rw [hnone, hnone', List.drop_zero, List.drop_zero]

/-! ## Ranges -/

/-- The entries of a range of the stream that the ring still has. -/
def kept (capacity : ℕ) (stream : List A) (start stop : ℕ) : List A :=
  (stream.take stop).drop (max start (stream.length - capacity))

/-- Some entry of a range is no longer in the ring. -/
def Gone (capacity : ℕ) (stream : List A) (start stop : ℕ) : Prop :=
  ∃ place, start ≤ place ∧ place < stop ∧ place + capacity < stream.length

theorem gone_iff {capacity : ℕ} {stream : List A} {start stop : ℕ} :
    Gone capacity stream start stop ↔ start < stop ∧ start + capacity < stream.length := by
  constructor
  · rintro ⟨place, hstart, hstop, hgone⟩
    omega
  · rintro ⟨hstop, hgone⟩
    exact ⟨start, Nat.le_refl start, hstop, hgone⟩

/-- A range that the ring has whole. -/
theorem kept_of_le {capacity : ℕ} {stream : List A} {start stop : ℕ}
    (h : stream.length - capacity ≤ start) (hle : start ≤ stop) :
    kept capacity stream start stop =
      ((newest capacity stream).take (stop - (stream.length - capacity))).drop
        (start - (stream.length - capacity)) := by
  have hstart : stream.length - capacity + (start - (stream.length - capacity)) = start := by omega
  have hstop : stream.length - capacity + (stop - (stream.length - capacity)) = stop := by omega
  unfold kept newest
  rw [Nat.max_eq_left h, List.take_drop, List.drop_drop, hstop, hstart]

/-- Of a range up to the end of the stream that starts too early, the ring itself is left. -/
theorem kept_of_lt {capacity : ℕ} {stream : List A} {start : ℕ}
    (h : start < stream.length - capacity) :
    kept capacity stream start stream.length = newest capacity stream := by
  unfold kept newest
  rw [List.take_length, Nat.max_eq_right (Nat.le_of_lt h)]

end Haruspex.Ring
