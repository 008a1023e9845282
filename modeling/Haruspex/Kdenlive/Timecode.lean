import Mathlib.Tactic.Ring
import Mathlib.Tactic.Linarith
import Haruspex.Kdenlive.Doc

/-! Times of a frame rate (`Fps::timecode`, `Fps::parse`), computed exactly: a number is a whole one over
a power of ten or over the rate's denominator. -/
namespace Haruspex.Kdenlive
open Rust (parseDigits parseI64 trim_eq_self)
set_option autoImplicit false

/-! ## Writing -/

/-- A profile's frame rate. -/
structure Rate where
  num : ℕ
  den : ℕ
  num_pos : 0 < num
  den_pos : 0 < den

/-- A quotient to the nearest whole number, half to even, as `{:.3}` rounds thousandths. -/
def roundEven (n d : ℕ) : ℕ :=
  let rest := 2 * (n % d)
  if rest < d then n / d else if d < rest then n / d + 1 else n / d + n / d % 2

/-- `{:0width}` -/
def padded (width n : ℕ) : List Char :=
  List.replicate (width - (Nat.toDigits 10 n).length) '0' ++ Nat.toDigits 10 n

/-- `{:06.3}` of thousandths. -/
def seconds (thousandths : ℕ) : List Char :=
  padded 2 (thousandths / 1000) ++ '.' :: padded 3 (thousandths % 1000)

namespace Rate

variable (r : Rate)

/-- Frames in whole units of so many seconds, truncated. -/
def framesIn (units secs : ℕ) : ℕ := units * secs * r.num / r.den

/-- Whole units of so many seconds in frames. -/
def unitsIn (frames secs : ℕ) : ℕ := frames * r.den / (secs * r.num)

def timecode (frames : ℤ) : String :=
  let f := frames.toNat
  let h := r.unitsIn f 3600
  let f := f - r.framesIn h 3600
  let m := r.unitsIn f 60
  let f := f - r.framesIn m 60
  String.ofList (List.intercalate [':']
    [padded 2 h, padded 2 m, seconds (roundEven (f * r.den * 1000) r.num)])

end Rate

/-! ## Reading -/

/-- The exponent after a number's digits. -/
def parseExponent (cs : List Char) : Option ℤ :=
  match cs with
  | [] => some 0
  | e :: cs => if e = 'e' ∨ e = 'E' then parseI64 cs else none

/-- `str::parse::<f64>` of a finite number, as a fraction. -/
def parseF64 (cs : List Char) : Option (ℤ × ℕ) :=
  let negative := cs.head? = some '-'
  let cs := if cs.head? = some '-' ∨ cs.head? = some '+' then cs.tail else cs
  let whole := cs.takeWhile Char.isDigit
  let rest := cs.dropWhile Char.isDigit
  let fraction := if rest.head? = some '.' then rest.tail.takeWhile Char.isDigit else []
  let rest := if rest.head? = some '.' then rest.tail.dropWhile Char.isDigit else rest
  if whole = [] ∧ fraction = [] then none
  else do
    let exponent ← parseExponent rest
    let digits : ℤ := Nat.ofDigitChars 10 (whole ++ fraction) 0
    let scale := exponent - fraction.length
    return ((if negative then -digits else digits) * 10 ^ scale.toNat, 10 ^ (-scale).toNat)

/-- `round` of a quotient: half away from zero. -/
def roundAway (n : ℤ) (d : ℕ) : ℤ := n.sign * ((2 * n.natAbs + d) / (2 * d) : ℕ)

namespace Rate

variable (r : Rate)

def parse (t : String) : Option ℤ :=
  let t := Rust.trim t.toList
  match parseI64 t with
  | some f => some f
  | none =>
    match t.splitOn ':' with
    | [h, m, s] => do
      let h ← parseF64 h
      let m ← parseF64 m
      let s ← parseF64 s
      return (h.1 * 3600 * r.num).tdiv (h.2 * r.den) + (m.1 * 60 * r.num).tdiv (m.2 * r.den) +
        roundAway (s.1 * r.num) (s.2 * r.den)
    | _ => none

end Rate

/-! ## Digits -/

theorem padded_digits (width n : ℕ) : ∀ c ∈ padded width n, c.isDigit = true := by
  intro c hc
  cases List.mem_append.mp hc with
  | inl h => rw [List.eq_of_mem_replicate h]; rfl
  | inr h => exact Nat.isDigit_of_mem_toDigits (by decide) (by decide) h

theorem padded_ne_nil (width n : ℕ) : padded width n ≠ [] := by
  unfold padded
  simp [Nat.toDigits_ne_nil]

theorem ofDigitChars_padded (width n : ℕ) : Nat.ofDigitChars 10 (padded width n) 0 = n := by
  unfold padded
  rw [Nat.ofDigitChars_append, Nat.ofDigitChars_replicate_zero, Nat.mul_zero,
    Nat.ofDigitChars_ten_toDigits]

theorem length_padded {width n : ℕ} (hwidth : 0 < width) (h : n < 10 ^ width) :
    (padded width n).length = width := by
  have hle := (Nat.length_toDigits_le_iff (n := n) (by decide) hwidth).mpr h
  unfold padded
  rw [List.length_append, List.length_replicate]
  omega

theorem takeWhile_digits {cs rest : List Char} (h : ∀ c ∈ cs, c.isDigit = true)
    (hrest : ∀ c ∈ rest.head?, c.isDigit = false) :
    (cs ++ rest).takeWhile Char.isDigit = cs ∧ (cs ++ rest).dropWhile Char.isDigit = rest := by
  have hstop : rest.takeWhile Char.isDigit = [] ∧ rest.dropWhile Char.isDigit = rest := by
    cases rest with
    | nil => exact ⟨rfl, rfl⟩
    | cons c rest =>
      have hc := hrest c rfl
      simp [hc]
  rw [List.takeWhile_append_of_pos h, List.dropWhile_append_of_pos h, hstop.1, hstop.2,
    List.append_nil]
  exact ⟨rfl, rfl⟩

/-- A number that starts with a digit has no sign. -/
theorem unsigned {cs : List Char} (h : ∀ c ∈ cs.head?, c.isDigit = true) :
    cs.head? ≠ some '-' ∧ cs.head? ≠ some '+' := by
  constructor <;> intro hsign <;> have := h _ hsign <;> revert this <;> decide

theorem head?_digits {cs rest : List Char} (hne : cs ≠ []) (h : ∀ c ∈ cs, c.isDigit = true) :
    ∀ c ∈ (cs ++ rest).head?, c.isDigit = true := by
  cases cs with
  | nil => exact absurd rfl hne
  | cons d cs =>
    intro c hc
    obtain rfl := Option.some.inj hc
    exact h d List.mem_cons_self

theorem parseF64_padded (width n : ℕ) : parseF64 (padded width n) = some ((n : ℤ), 1) := by
  have hdigits := padded_digits width n
  have hne := padded_ne_nil width n
  have hhead := @head?_digits _ [] hne hdigits
  rw [List.append_nil] at hhead
  obtain ⟨hminus, hplus⟩ := unsigned hhead
  have hwhole := @takeWhile_digits _ [] hdigits (by nofun)
  rw [List.append_nil] at hwhole
  unfold parseF64
  simp [hminus, hplus, hwhole.1, hwhole.2, hne, parseExponent, ofDigitChars_padded]

theorem parseF64_seconds (n : ℕ) : parseF64 (seconds n) = some ((n : ℤ), 1000) := by
  have hdigits := padded_digits 2 (n / 1000)
  have hdigits' := padded_digits 3 (n % 1000)
  have hne := padded_ne_nil 2 (n / 1000)
  have hhead := @head?_digits _ ('.' :: padded 3 (n % 1000)) hne hdigits
  obtain ⟨hminus, hplus⟩ := unsigned hhead
  have hwhole := @takeWhile_digits _ ('.' :: padded 3 (n % 1000)) hdigits (by
    intro c hc
    obtain rfl := Option.some.inj hc
    decide)
  have hfraction := @takeWhile_digits _ [] hdigits' (by nofun)
  rw [List.append_nil] at hfraction
  have hlen : (padded 3 (n % 1000)).length = 3 :=
    length_padded (by decide) (Nat.mod_lt n (by decide))
  have hvalue : Nat.ofDigitChars 10 (padded 2 (n / 1000) ++ padded 3 (n % 1000)) 0 = n := by
    rw [Nat.ofDigitChars_append, ofDigitChars_padded, Nat.ofDigitChars_eq_ofDigitChars_zero,
      ofDigitChars_padded, hlen]
    exact Nat.div_add_mod n 1000
  unfold parseF64 seconds
  simp only [hminus, hplus, hwhole.1, hwhole.2, hne, hlen, hvalue, hfraction.1, hfraction.2,
    parseExponent, List.head?_cons, List.tail_cons, or_self, if_false, if_true, false_and,
    Bool.false_eq_true, bind, Option.bind, pure]
  show some ((n : ℤ) * 10 ^ 0, 10 ^ 3) = _
  rw [pow_zero, mul_one]
  rfl

/-- The printed time's characters are digits and two marks. -/
theorem parseI64_of_mark {cs : List Char} (hhead : ∀ c ∈ cs.head?, c.isDigit = true) (h : ':' ∈ cs) :
    parseI64 cs = none := by
  obtain ⟨hminus, hplus⟩ := unsigned hhead
  have hall : ¬cs.all Char.isDigit = true := by
    intro hall
    have := List.all_eq_true.mp hall ':' h
    revert this
    decide
  unfold parseI64 parseDigits
  simp only [hminus, hplus, if_false]
  rw [if_neg (fun hboth => hall hboth.2)]
  rfl

/-! ## Round trips -/

theorem two_mul_roundEven (n : ℕ) {d : ℕ} (hd : 0 < d) :
    2 * n ≤ 2 * (roundEven n d * d) + d ∧ 2 * (roundEven n d * d) ≤ 2 * n + d := by
  have hdiv := Nat.div_add_mod n d
  have hlt := Nat.mod_lt n hd
  have hcomm : n / d * d = d * (n / d) := Nat.mul_comm _ _
  have hsucc : (n / d + 1) * d = n / d * d + d := Nat.succ_mul _ _
  unfold roundEven
  dsimp only
  split
  · omega
  · split
    · omega
    · obtain heven | hodd : n / d % 2 = 0 ∨ n / d % 2 = 1 := by omega
      · rw [heven, Nat.add_zero]
        omega
      · rw [hodd]
        omega

theorem roundAway_of_close {n : ℕ} {d f : ℕ} (hd : 0 < d) (hlow : 2 * (f * d) ≤ 2 * n + d)
    (hhigh : 2 * n < 2 * (f * d) + d) : roundAway n d = f := by
  have hdiv : (2 * n + d) / (2 * d) = f := by
    have hf : f * (2 * d) = 2 * (f * d) := by ring
    have hsucc : (f + 1) * (2 * d) = 2 * (f * d) + 2 * d := by ring
    refine Nat.div_eq_of_lt_le ?_ ?_
    · omega
    · rw [hsucc]
      omega
  unfold roundAway
  rw [Int.natAbs_natCast, hdiv]
  cases n with
  | zero =>
    have hzero : f = 0 := by
      by_contra hne
      have : d ≤ f * d := Nat.le_mul_of_pos_left d (Nat.pos_of_ne_zero hne)
      omega
    rw [hzero]
    rfl
  | succ n => rw [Int.sign_natCast_of_ne_zero (Nat.succ_ne_zero n), one_mul]

namespace Rate

variable {r : Rate}

/-- Whole units taken off are no more than there are. -/
theorem framesIn_unitsIn_le (frames secs : ℕ) : r.framesIn (r.unitsIn frames secs) secs ≤ frames := by
  unfold framesIn unitsIn
  refine Nat.div_le_of_le_mul ?_
  calc frames * r.den / (secs * r.num) * secs * r.num
      = frames * r.den / (secs * r.num) * (secs * r.num) := by ring
    _ ≤ frames * r.den := Nat.div_mul_le_self _ _
    _ = r.den * frames := Nat.mul_comm _ _

theorem tdiv_framesIn (units secs : ℕ) :
    ((units : ℤ) * secs * r.num).tdiv ((1 : ℕ) * r.den) = r.framesIn units secs := by
  unfold framesIn
  push_cast
  rw [one_mul, Int.tdiv_eq_ediv_of_nonneg (by positivity)]

/-- Frames are read back from their thousandths of a second. -/
theorem roundAway_seconds (h : r.num < 1000 * r.den) (f : ℕ) :
    roundAway ((roundEven (f * r.den * 1000) r.num : ℕ) * r.num) ((1000 : ℕ) * r.den) = f := by
  obtain ⟨hlow, hhigh⟩ := two_mul_roundEven (f * r.den * 1000) r.num_pos
  have hscale : f * (1000 * r.den) = f * r.den * 1000 := by ring
  have hround := roundAway_of_close (n := roundEven (f * r.den * 1000) r.num * r.num)
    (d := 1000 * r.den) (f := f) (by have := r.den_pos; omega) (by omega) (by omega)
  push_cast at hround ⊢
  exact hround

theorem timeChars (h m n : ℕ) (c : Char)
    (hc : c ∈ List.intercalate [':'] [padded 2 h, padded 2 m, seconds n]) :
    c.isDigit = true ∨ c = ':' ∨ c = '.' := by
  have hdigits : ∀ width k, c ∈ padded width k → c.isDigit = true ∨ c = ':' ∨ c = '.' :=
    fun width k hk => Or.inl (padded_digits width k c hk)
  simp only [List.intercalate, List.intersperse, List.flatten_cons, List.flatten_nil, List.append_nil,
    List.mem_append, seconds, List.mem_cons, List.not_mem_nil, or_false] at hc
  rcases hc with hc | hc | hc | hc | hc | hc | hc
  · exact hdigits 2 h hc
  · exact Or.inr (Or.inl hc)
  · exact hdigits 2 m hc
  · exact Or.inr (Or.inl hc)
  · exact hdigits 2 _ hc
  · exact Or.inr (Or.inr hc)
  · exact hdigits 3 _ hc

theorem isWhitespace_of_digit {c : Char} (h : c.isDigit = true) : Rust.isWhitespace c = false := by
  have hbounds : 48 ≤ c.toNat ∧ c.toNat ≤ 57 := by
    simp only [Char.isDigit, Bool.and_eq_true, decide_eq_true_eq, ge_iff_le, UInt32.le_iff_toNat_le] at h
    exact h
  obtain ⟨hlow, hhigh⟩ := hbounds
  unfold Rust.isWhitespace
  generalize c.toNat = n at hlow hhigh
  simp
  omega

/-- `parse` undoes `timecode` below a thousand frames a second. -/
theorem parse_timecode (h : r.num < 1000 * r.den) (frames : ℤ) (hframes : 0 ≤ frames) :
    r.parse (r.timecode frames) = some frames := by
  unfold parse timecode
  dsimp only
  generalize hf : frames.toNat = f
  have hhours := framesIn_unitsIn_le (r := r) f 3600
  generalize hh : r.unitsIn f 3600 = hours at hhours
  generalize hf' : f - r.framesIn hours 3600 = f'
  have hminutes := framesIn_unitsIn_le (r := r) f' 60
  generalize hm : r.unitsIn f' 60 = minutes at hminutes
  generalize hn : roundEven ((f' - r.framesIn minutes 60) * r.den * 1000) r.num = n
  have htext : ∀ c ∈ List.intercalate [':'] [padded 2 hours, padded 2 minutes, seconds n],
      Rust.isWhitespace c = false := by
    intro c hc
    rcases timeChars hours minutes n c hc with hdigit | rfl | rfl
    · exact isWhitespace_of_digit hdigit
    · rfl
    · rfl
  have hmark : parseI64 (List.intercalate [':'] [padded 2 hours, padded 2 minutes, seconds n]) =
      none := by
    refine parseI64_of_mark ?_ (by simp [List.intercalate, List.intersperse])
    exact head?_digits (padded_ne_nil 2 hours) (padded_digits 2 hours)
  have hparts : (List.intercalate [':'] [padded 2 hours, padded 2 minutes, seconds n]).splitOn ':' =
      [padded 2 hours, padded 2 minutes, seconds n] := by
    have hno : ∀ width k, ':' ∉ padded width k := fun width k hk => by
      have := padded_digits width k ':' hk
      revert this
      decide
    refine List.splitOn_intercalate ':' ?_ (by simp)
    intro part hpart
    simp only [List.mem_cons, List.not_mem_nil, or_false] at hpart
    rcases hpart with rfl | rfl | rfl
    · exact hno 2 hours
    · exact hno 2 minutes
    · unfold seconds
      simp [hno]
  rw [String.toList_ofList, trim_eq_self htext, hmark, hparts]
  simp only [parseF64_padded, parseF64_seconds, bind, Option.bind, pure]
  have hseconds := roundAway_seconds h (f' - r.framesIn minutes 60)
  rw [hn] at hseconds
  have hwhole := tdiv_framesIn (r := r) hours 3600
  have hsixty := tdiv_framesIn (r := r) minutes 60
  push_cast at hwhole hsixty hseconds ⊢
  rw [hwhole, hsixty, hseconds]
  congr 1
  omega

/-- The times of a rate below a thousand frames a second. -/
def fps (r : Rate) (h : r.num < 1000 * r.den) : Fps := ⟨r.timecode, r.parse, parse_timecode h⟩

/-- 25 frames a second. -/
def pal : Rate := ⟨25, 1, by decide, by decide⟩

theorem pal_lt : pal.num < 1000 * pal.den := by decide

/-- 29.97 frames a second. -/
def ntsc : Rate := ⟨30000, 1001, by decide, by decide⟩

/-- A time is read back as the frame it was written for. -/
theorem parse_timecode_frame (num den : ℕ) (hnum : 0 < num) (hden : 0 < den) (hrate : num < 1000 * den)
    (frame : ℕ) : (Rate.mk num den hnum hden).parse ((Rate.mk num den hnum hden).timecode frame) =
      some (frame : ℤ) := parse_timecode hrate frame (by omega)

theorem parse_timecode_frame_ntsc : ntsc.timecode 58238 = "00:32:23.223" ∧ ntsc.parse (ntsc.timecode 58238) =
    some 58238 := ⟨by decide +kernel, parse_timecode_frame 30000 1001 (by decide) (by decide) (by decide) 58238⟩

end Rate

example : Rate.pal.timecode 90099 = "01:00:03.960" := by decide +kernel

example : Rate.pal.parse "00:00:03.960" = some 99 := by decide +kernel

end Haruspex.Kdenlive
