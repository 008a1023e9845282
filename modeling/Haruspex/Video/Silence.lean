import Mathlib.Algebra.Order.Archimedean.Basic
import Mathlib.Data.List.Chain
import Mathlib.Data.List.Induction
import Mathlib.Data.Rat.Floor
import Mathlib.Tactic.Linarith
import Mathlib.Tactic.NormNum
import Mathlib.Tactic.Ring

/-! Where audio is cut for transcription (`video/silence.rs`), with times as exact numbers. -/
namespace Haruspex.Video
set_option autoImplicit false

/-! ## The code -/

structure SilenceRange where
  start : ℚ
  stop : ℚ

def SilenceRange.middle (s : SilenceRange) : ℚ := (s.start + s.stop) / 2

/-- `min_by`: the first of those closest to a mark. -/
def closest (mark : ℚ) : List ℚ → Option ℚ
  | [] => none
  | m :: ms => some (ms.foldl (fun best m => if |m - mark| < |best - mark| then m else best) m)

/-- The middles near a mark that are more than a second after the last point. -/
def candidates (silences : List SilenceRange) (last mark reach : ℚ) : List ℚ :=
  (silences.map SilenceRange.middle).filter fun m => |m - mark| ≤ reach ∧ last + 1 < m

/-- The `while` loop, for some turns at most. -/
def chunkLoop (duration : ℚ) (silences : List SilenceRange) (every reach : ℚ) : ℕ → List ℚ → ℚ → Option (List ℚ)
  | 0, _, _ => none
  | turns + 1, points, mark =>
    if mark < duration - min reach (every / 2) then
      let best := closest mark (candidates silences (points.getLast?.getD 0) mark reach)
      let points := points ++ [best.getD mark]
      chunkLoop duration silences every reach turns points (points.getLast?.getD mark + every)
    else some (points ++ [duration])

def chunkPoints (turns : ℕ) (duration : ℚ) (silences : List SilenceRange) (every reach : ℚ) : Option (List ℚ) :=
  chunkLoop duration silences every reach turns [0] every

/-! ## What the points are -/

/-- A point after another: the middle of a silence within reach of the mark, as close to it as any that is eligible,
or the mark where there is none. -/
def CutAt (eligible : ℚ → Prop) (silences : List SilenceRange) (mark reach b : ℚ) : Prop :=
  (∃ s ∈ silences, b = s.middle ∧ |b - mark| ≤ reach ∧
      ∀ s' ∈ silences, |s'.middle - mark| ≤ reach → eligible s'.middle → |b - mark| ≤ |s'.middle - mark|) ∨
    b = mark ∧ ∀ s ∈ silences, |s.middle - mark| ≤ reach → ¬ eligible s.middle

/-- The points cut the audio from its start to its end. -/
structure Chunked (eligible : ℚ → ℚ → Prop) (duration : ℚ) (silences : List SilenceRange) (every reach : ℚ)
    (points : List ℚ) : Prop where
  increasing : points.Pairwise (· < ·)
  short : points.IsChain fun a b => b - a ≤ every + reach
  cut : ∃ interior, points = 0 :: interior ++ [duration] ∧
    (0 :: interior).IsChain fun a b => CutAt (eligible a) silences (a + every) reach b

theorem closest_eq_none {mark : ℚ} {ms : List ℚ} : closest mark ms = none ↔ ms = [] := by
  cases ms with
  | nil => simp [closest]
  | cons m ms => simp [closest]

theorem closest_some {mark b : ℚ} {ms : List ℚ} (h : closest mark ms = some b) :
    b ∈ ms ∧ ∀ m ∈ ms, |b - mark| ≤ |m - mark| := by
  cases ms with
  | nil => cases h
  | cons m ms =>
    cases h
    induction ms using List.reverseRecOn with
    | nil => simp
    | append_singleton ms m' ih =>
      rw [List.foldl_append]
      obtain ⟨hmem, hle⟩ := ih
      generalize ms.foldl (fun best m => if |m - mark| < |best - mark| then m else best) m = best at hmem hle
      simp only [List.foldl_cons, List.foldl_nil]
      split
      · rename_i hlt
        refine ⟨by simp, fun x hx => ?_⟩
        rw [← List.cons_append, List.mem_append, List.mem_singleton] at hx
        obtain hx | rfl := hx
        · exact (le_of_lt hlt).trans (hle x hx)
        · exact le_refl _
      · rename_i hnot
        refine ⟨by rw [← List.cons_append]; exact List.mem_append_left _ hmem, fun x hx => ?_⟩
        rw [← List.cons_append, List.mem_append, List.mem_singleton] at hx
        obtain hx | rfl := hx
        · exact hle x hx
        · exact not_lt.mp hnot

/-- What one turn of the loop adds. -/
theorem cutAt_next (silences : List SilenceRange) (last mark reach : ℚ) :
    CutAt (last + 1 < ·) silences mark reach ((closest mark (candidates silences last mark reach)).getD mark) := by
  cases hclosest : closest mark (candidates silences last mark reach) with
  | none =>
    refine .inr ⟨rfl, fun s hs hreach hlater => ?_⟩
    rw [closest_eq_none, candidates, List.filter_eq_nil_iff] at hclosest
    exact hclosest s.middle (List.mem_map_of_mem hs) (by simp [hreach, hlater])
  | some b =>
    obtain ⟨hmem, hle⟩ := closest_some hclosest
    have hfilter := List.mem_filter.mp hmem
    obtain ⟨s, hs, hb⟩ := List.mem_map.mp hfilter.1
    refine .inl ⟨s, hs, hb.symm, (of_decide_eq_true hfilter.2).1, fun s' hs' hreach hlater => hle _ ?_⟩
    exact List.mem_filter.mpr ⟨List.mem_map_of_mem hs', by simp [hreach, hlater]⟩

/-- A point that is cut at is within reach of its mark. -/
theorem CutAt.near {eligible : ℚ → Prop} {silences : List SilenceRange} {mark reach b : ℚ} (hreach : 0 < reach)
    (h : CutAt eligible silences mark reach b) : mark - reach ≤ b ∧ b ≤ mark + reach := by
  obtain ⟨s, -, -, hb, -⟩ | ⟨rfl, -⟩ := h
  · rw [abs_le] at hb
    constructor <;> linarith
  · constructor <;> linarith

/-- The invariant of the loop: the points so far, from the first to the last. -/
structure Cutting (silences : List SilenceRange) (every reach duration : ℚ) (points : List ℚ) (last : ℚ) : Prop where
  ends : ∃ interior, points = 0 :: interior ∧ points.getLast? = some last
  before : last < duration
  increasing : points.IsChain (· < ·)
  short : points.IsChain fun a b => b - a ≤ every + reach
  cut : points.IsChain fun a b => CutAt (a + 1 < ·) silences (a + every) reach b

theorem Cutting.step {silences : List SilenceRange} {every reach duration last b : ℚ} {points : List ℚ}
    (h : Cutting silences every reach duration points last) (hreach : 0 < reach) (hle : reach ≤ every / 2)
    (hmark : last + every < duration - reach) (hcut : CutAt (last + 1 < ·) silences (last + every) reach b) :
    Cutting silences every reach duration (points ++ [b]) b ∧ last + every / 2 ≤ b := by
  obtain ⟨hlow, hhigh⟩ := hcut.near hreach
  obtain ⟨interior, hpoints, hlast⟩ := h.ends
  refine ⟨⟨⟨interior ++ [b], by rw [hpoints]; rfl, List.getLast?_concat⟩, by linarith, ?_, ?_, ?_⟩, by linarith⟩
  · rw [List.isChain_append]
    refine ⟨h.increasing, List.isChain_singleton _, fun x hx y hy => ?_⟩
    simp only [hlast, Option.mem_def, Option.some_inj, List.head?_cons] at hx hy
    subst hx hy
    linarith
  · rw [List.isChain_append]
    refine ⟨h.short, List.isChain_singleton _, fun x hx y hy => ?_⟩
    simp only [hlast, Option.mem_def, Option.some_inj, List.head?_cons] at hx hy
    subst hx hy
    linarith
  · rw [List.isChain_append]
    refine ⟨h.cut, List.isChain_singleton _, fun x hx y hy => ?_⟩
    simp only [hlast, Option.mem_def, Option.some_inj, List.head?_cons] at hx hy
    subst hx hy
    exact hcut

theorem Cutting.done {silences : List SilenceRange} {every reach duration last : ℚ} {points : List ℚ}
    (h : Cutting silences every reach duration points last) (hmark : duration - reach ≤ last + every) :
    Chunked (fun a m => a + 1 < m) duration silences every reach (points ++ [duration]) := by
  obtain ⟨interior, hpoints, hlast⟩ := h.ends
  have hbefore := h.before
  refine ⟨?_, ?_, interior, by rw [hpoints], hpoints ▸ h.cut⟩
  · rw [← List.isChain_iff_pairwise, List.isChain_append]
    refine ⟨h.increasing, List.isChain_singleton _, fun x hx y hy => ?_⟩
    simp only [hlast, Option.mem_def, Option.some_inj, List.head?_cons] at hx hy
    subst hx hy
    exact hbefore
  · rw [List.isChain_append]
    refine ⟨h.short, List.isChain_singleton _, fun x hx y hy => ?_⟩
    simp only [hlast, Option.mem_def, Option.some_inj, List.head?_cons] at hx hy
    subst hx hy
    linarith

/-- Each turn goes half a chunk further at least, so the loop ends. -/
theorem chunkLoop_ends {silences : List SilenceRange} {every reach duration : ℚ} (hreach : 0 < reach)
    (hle : reach ≤ every / 2) (left : ℕ) {points : List ℚ} {last : ℚ}
    (h : Cutting silences every reach duration points last) (hleft : duration ≤ last + left * (every / 2)) :
    ∃ out, Chunked (fun a m => a + 1 < m) duration silences every reach out ∧
      ∀ turns, left < turns → chunkLoop duration silences every reach turns points (last + every) = some out := by
  induction left generalizing points last with
  | zero =>
    have hbefore := h.before
    rw [Nat.cast_zero, zero_mul, add_zero] at hleft
    linarith
  | succ left ih =>
    have hlast : points.getLast?.getD 0 = last := by
      obtain ⟨interior, -, hlast⟩ := h.ends
      rw [hlast]
      rfl
    by_cases hmark : last + every < duration - reach
    · obtain ⟨hnext, hfar⟩ := h.step hreach hle hmark (cutAt_next silences last (last + every) reach)
      rw [Nat.cast_succ] at hleft
      obtain ⟨out, hout, hruns⟩ := ih hnext (by linarith)
      refine ⟨out, hout, fun turns hturns => ?_⟩
      obtain ⟨turns, rfl⟩ := Nat.exists_eq_succ_of_ne_zero (Nat.ne_of_gt (Nat.zero_lt_of_lt hturns))
      rw [chunkLoop, min_eq_left hle, if_pos hmark]
      dsimp only
      rw [hlast, List.getLast?_concat]
      exact hruns turns (Nat.lt_of_succ_lt_succ hturns)
    · refine ⟨_, h.done (not_lt.mp hmark), fun turns hturns => ?_⟩
      obtain ⟨turns, rfl⟩ := Nat.exists_eq_succ_of_ne_zero (Nat.ne_of_gt (Nat.zero_lt_of_lt hturns))
      rw [chunkLoop, min_eq_left hle, if_neg hmark]

end Haruspex.Video
