import Haruspex.Rust.Text
import Mathlib.Algebra.Ring.Int.Defs
import Mathlib.Data.List.TakeWhile

/-! Durations of calendar events (`integrations/dav/ical.rs`). An operation that panics or overflows in Rust
is `none` here; a duration is its nanoseconds. -/
namespace Haruspex.Calendar
open Rust (trim parseI64 parseDigits parseDigits_eq_some)
set_option autoImplicit false

/-! ## The code -/

/-- What 64 bits hold. -/
def i64 (n : ℤ) : Option ℤ := if -2 ^ 63 ≤ n ∧ n < 2 ^ 63 then some n else none

/-- `Duration::seconds`, whose milliseconds fit 64 bits. -/
def Duration.seconds (n : ℤ) : Option ℤ :=
  if -2 ^ 63 < n * 1000 ∧ n * 1000 < 2 ^ 63 then some (n * 1000000000) else none

/-- The sum so far, and the digits since the last unit. -/
structure Reading where
  seconds : ℤ := 0
  number : List Char := []

/-- What the number before `W` or `D` is multiplied by, step by step. -/
def dateFactors : Char → Option (List ℤ)
  | 'W' => some [7, 86400]
  | 'D' => some [86400]
  | _ => none

/-- What the number before `H`, `M` or `S` is multiplied by. -/
def timeFactors : Char → Option (List ℤ)
  | 'H' => some [3600]
  | 'M' => some [60]
  | 'S' => some []
  | _ => none

def multiply : ℤ → List ℤ → Option ℤ
  | n, [] => some n
  | n, factor :: factors => (i64 (n * factor)).bind (multiply · factors)

/-- The loop over the characters of a part; the inner `none` is a text that is no duration. -/
def readPart (factors : Char → Option (List ℤ)) : List Char → Reading → Option (Option Reading)
  | [], r => some (some r)
  | ch :: chars, r =>
    if ch.isDigit then readPart factors chars { r with number := r.number ++ [ch] }
    else
      match parseI64 r.number, factors ch with
      | some n, some fs => do
        let product ← multiply n fs
        let seconds ← i64 (r.seconds + product)
        readPart factors chars ⟨seconds, []⟩
      | _, _ => some none

def splitSign : List Char → ℤ × List Char
  | '-' :: rest => (-1, rest)
  | '+' :: rest => (1, rest)
  | rest => (1, rest)

/-- `split_once('T')` -/
def splitTime (rest : List Char) : List Char × Option (List Char) :=
  match rest.dropWhile (· ≠ 'T') with
  | [] => (rest, none)
  | _ :: time => (rest.takeWhile (· ≠ 'T'), some time)

def parseDuration (value : List Char) : Option (Option ℤ) :=
  let (sign, rest) := splitSign (trim value)
  match rest with
  | 'P' :: rest => do
    let (datePart, timePart) := splitTime rest
    match ← readPart dateFactors datePart {} with
    | none => some none
    | some r =>
      match ← (timePart.elim (some (some r)) fun part => readPart timeFactors part r) with
      | none => some none
      | some r =>
        if r.number = [] then do
          let seconds ← i64 (sign * r.seconds)
          (Duration.seconds seconds).map some
        else some none
  | _ => some none

/-! ## What a duration says -/

/-- The seconds of each date unit. -/
def dateUnit : Char → Option ℕ
  | 'W' => some 604800
  | 'D' => some 86400
  | _ => none

/-- The seconds of each time unit. -/
def timeUnit : Char → Option ℕ
  | 'H' => some 3600
  | 'M' => some 60
  | 'S' => some 1
  | _ => none

/-- Numbers with their units, one after another, and the seconds they add up to. -/
inductive Adds (unit : Char → Option ℕ) : List Char → ℕ → Prop
  | nil : Adds unit [] 0
  | item {digits rest : List Char} {u : Char} {weight total : ℕ} (hne : digits ≠ [])
      (hdigits : ∀ c ∈ digits, c.isDigit = true) (hunit : unit u = some weight) (hrest : Adds unit rest total) :
      Adds unit (digits ++ u :: rest) (Nat.ofDigitChars 10 digits 0 * weight + total)

/-- The text of a duration, and the seconds its weeks, days, hours, minutes and seconds add up to. -/
def Spells (value : List Char) (n : ℤ) : Prop :=
  ∃ date dates total, Adds dateUnit date dates ∧ n = (splitSign (trim value)).1 * (total : ℕ) ∧
    ((splitSign (trim value)).2 = 'P' :: date ∧ total = dates ∨
      ∃ time times, Adds timeUnit time times ∧
        (splitSign (trim value)).2 = 'P' :: (date ++ 'T' :: time) ∧ total = dates + times)

/-- Either no duration, or the exact number of seconds, and no overflow on the way. -/
def Exact (value : List Char) : Prop :=
  ∃ duration, parseDuration value = some duration ∧
    ∀ d, duration = some d → ∃ n, Spells value n ∧ d = n * 1000000000

/-- The seconds of the items up to the first that is malformed, and, where none is, the digits after the
last. -/
def readItems (unit : Char → Option ℕ) (number : List Char) : List Char → ℕ × Option (List Char)
  | [] => (0, some number)
  | ch :: chars =>
    if ch.isDigit then readItems unit (number ++ [ch]) chars
    else
      match parseI64 number, unit ch with
      | some n, some weight =>
        (n.toNat * weight + (readItems unit [] chars).1, (readItems unit [] chars).2)
      | _, _ => (0, none)

/-- The seconds of a whole text up to the first malformed item, the digits that the date part leaves to the
time part, and those that are left at the end. -/
def readWhole (rest : List Char) : ℕ × Option (List Char) × Option (List Char) :=
  let (datePart, timePart) := splitTime rest
  let (dates, carried) := readItems dateUnit [] datePart
  match carried, timePart with
  | some number, some part =>
    (dates + (readItems timeUnit number part).1, carried, (readItems timeUnit number part).2)
  | _, _ => (dates, carried, carried)

/-- The seconds that are read fit 64 bits, and those of a duration fit in milliseconds. -/
def InRange (value : List Char) : Prop :=
  match (splitSign (trim value)).2 with
  | 'P' :: rest =>
    (readWhole rest).1 < 2 ^ 63 ∧ ((readWhole rest).2.2 = some [] → (readWhole rest).1 * 1000 < 2 ^ 63)
  | _ => True

/-- No digits of a duration stand between its date part and its `T`. -/
def Separated (value : List Char) : Prop :=
  match (splitSign (trim value)).2 with
  | 'P' :: rest => (readWhole rest).2.2 = some [] → (readWhole rest).2.1 = some []
  | _ => True

/-- The nanoseconds of a duration, in numbers of any size. -/
def stated (value : List Char) : Option ℤ :=
  match (splitSign (trim value)).2 with
  | 'P' :: rest =>
    if (readWhole rest).2.2 = some [] then
      some ((splitSign (trim value)).1 * (readWhole rest).1 * 1000000000)
    else none
  | _ => none

/-! ## Numbers and units -/

theorem i64_natCast (n : ℕ) : i64 n = if n < 2 ^ 63 then some (n : ℤ) else none := by
  unfold i64
  have h : (-2 ^ 63 ≤ (n : ℤ) ∧ (n : ℤ) < 2 ^ 63) ↔ n < 2 ^ 63 := by omega
  simp only [h]

/-- A number in its digits has no sign. -/
theorem parseI64_digits {number : List Char} (h : ∀ c ∈ number, c.isDigit = true) (n : ℤ) :
    parseI64 number = some n ↔
      number ≠ [] ∧ Nat.ofDigitChars 10 number 0 < 2 ^ 63 ∧ n = Nat.ofDigitChars 10 number 0 := by
  have hminus : ¬ number.head? = some '-' := by
    intro hsign
    exact absurd (h '-' (List.mem_of_mem_head? hsign)) (by decide)
  have hplus : ¬ number.head? = some '+' := by
    intro hsign
    exact absurd (h '+' (List.mem_of_mem_head? hsign)) (by decide)
  rw [parseI64, if_neg hminus, if_neg hplus, Option.map_eq_some_iff]
  simp only [Option.filter_eq_some_iff, parseDigits_eq_some, decide_eq_true_iff]
  constructor
  · rintro ⟨m, ⟨⟨hne, -, rfl⟩, hlt⟩, rfl⟩
    exact ⟨hne, hlt, rfl⟩
  · rintro ⟨hne, hlt, rfl⟩
    exact ⟨_, ⟨⟨hne, h, rfl⟩, hlt⟩, rfl⟩

/-- Factors that make up the weight of a unit. -/
structure Weighs (factors : Char → Option (List ℤ)) (unit : Char → Option ℕ) : Prop where
  unknown : ∀ ch, factors ch = none → unit ch = none
  known : ∀ ch fs, factors ch = some fs → ∃ weight, unit ch = some weight ∧
    ∀ n : ℕ, n < 2 ^ 63 → multiply n fs = i64 ((n * weight : ℕ) : ℤ)

theorem multiply_single (n weight : ℕ) :
    multiply (n : ℤ) [(weight : ℤ)] = i64 ((n * weight : ℕ) : ℤ) := by
  simp only [multiply, ← Int.natCast_mul, i64_natCast]
  split <;> rfl

theorem weighs_date : Weighs dateFactors dateUnit where
  unknown ch h := by
    unfold dateFactors at h
    unfold dateUnit
    split at h
    · cases h
    · cases h
    · simp_all
  known ch fs h := by
    unfold dateFactors at h
    split at h
    · obtain rfl := Option.some.inj h
      refine ⟨604800, rfl, fun n _ => ?_⟩
      by_cases hfits : n * 7 < 2 ^ 63
      · have hweek : i64 ((n : ℤ) * 7) = some ((n * 7 : ℕ) : ℤ) := by
          rw [show (n : ℤ) * 7 = ((n * 7 : ℕ) : ℤ) by simp, i64_natCast, if_pos hfits]
        rw [multiply, hweek, Option.bind_some, show (86400 : ℤ) = ((86400 : ℕ) : ℤ) from rfl,
          multiply_single, Nat.mul_assoc]
      · have hweek : i64 ((n : ℤ) * 7) = none := by
          rw [show (n : ℤ) * 7 = ((n * 7 : ℕ) : ℤ) by simp, i64_natCast, if_neg hfits]
        rw [multiply, hweek, Option.bind_none, i64_natCast, if_neg (by omega)]
    · obtain rfl := Option.some.inj h
      exact ⟨86400, rfl, fun n _ => multiply_single n 86400⟩
    · cases h

theorem weighs_time : Weighs timeFactors timeUnit where
  unknown ch h := by
    unfold timeFactors at h
    unfold timeUnit
    split at h
    · cases h
    · cases h
    · cases h
    · simp_all
  known ch fs h := by
    unfold timeFactors at h
    split at h
    · obtain rfl := Option.some.inj h
      exact ⟨3600, rfl, fun n _ => multiply_single n 3600⟩
    · obtain rfl := Option.some.inj h
      exact ⟨60, rfl, fun n _ => multiply_single n 60⟩
    · obtain rfl := Option.some.inj h
      refine ⟨1, rfl, fun n hn => ?_⟩
      rw [multiply, Nat.mul_one, i64_natCast, if_pos hn]
    · cases h

/-! ## One part -/

/-- The product and the sum are checked one after the other; the sum bounds the product. -/
theorem add_checked {α : Type} (n product : ℕ) (next : ℤ → Option α) :
    ((i64 (product : ℤ)).bind fun p => (i64 ((n : ℤ) + p)).bind next) =
      if n + product < 2 ^ 63 then next ((n + product : ℕ) : ℤ) else none := by
  rw [i64_natCast]
  by_cases hproduct : product < 2 ^ 63
  · rw [if_pos hproduct, Option.bind_some, ← Int.natCast_add, i64_natCast]
    split
    · exact Option.bind_some _ _
    · exact Option.bind_none _
  · rw [if_neg hproduct, Option.bind_none, if_neg (by omega)]

/-- The loop over a part: what is read, as long as it fits 64 bits. -/
theorem readPart_eq {factors : Char → Option (List ℤ)} {unit : Char → Option ℕ} (hw : Weighs factors unit)
    (chars number : List Char) (hnumber : ∀ c ∈ number, c.isDigit = true) (n : ℕ) (hn : n < 2 ^ 63) :
    readPart factors chars ⟨n, number⟩ =
      if n + (readItems unit number chars).1 < 2 ^ 63 then
        some ((readItems unit number chars).2.map fun left =>
          ⟨(n + (readItems unit number chars).1 : ℕ), left⟩)
      else none := by
  induction chars generalizing number n with
  | nil =>
    simp [readPart, readItems]
    omega
  | cons ch chars ih =>
    unfold readPart readItems
    by_cases hdigit : ch.isDigit = true
    · rw [if_pos hdigit, if_pos hdigit]
      refine ih (number ++ [ch]) (fun c hc => ?_) n hn
      rcases List.mem_append.mp hc with hc | hc
      · exact hnumber c hc
      · rwa [List.mem_singleton.mp hc]
    · rw [if_neg hdigit, if_neg hdigit]
      cases hparse : parseI64 number with
      | none =>
        simp
        omega
      | some m =>
        obtain ⟨-, hlt, rfl⟩ := (parseI64_digits hnumber m).mp hparse
        cases hfactors : factors ch with
        | none =>
          simp [hw.unknown ch hfactors]
          omega
        | some fs =>
          obtain ⟨weight, hunit, hproduct⟩ := hw.known ch fs hfactors
          simp only [hunit, hproduct _ hlt, Int.toNat_natCast]
          generalize Nat.ofDigitChars 10 number 0 * weight = product
          rw [Option.bind_eq_bind, add_checked n product]
          by_cases hsum : n + product < 2 ^ 63
          · rw [if_pos hsum, ih [] (List.forall_mem_nil _) (n + product) hsum, Nat.add_assoc]
          · rw [if_neg hsum, if_neg (by omega)]

variable {unit : Char → Option ℕ}

/-- What is read is a sum of items, with digits after it. -/
theorem adds_of_readItems {chars number left : List Char} {total : ℕ}
    (hnumber : ∀ c ∈ number, c.isDigit = true) (h : readItems unit number chars = (total, some left)) :
    ∃ body, number ++ chars = body ++ left ∧ Adds unit body total ∧ ∀ c ∈ left, c.isDigit = true := by
  induction chars generalizing number total with
  | nil =>
    obtain ⟨rfl, hleft⟩ := Prod.mk.inj h
    obtain rfl := Option.some.inj hleft
    exact ⟨[], List.append_nil number, .nil, hnumber⟩
  | cons ch chars ih =>
    unfold readItems at h
    by_cases hdigit : ch.isDigit = true
    · rw [if_pos hdigit] at h
      have hlonger : ∀ c ∈ number ++ [ch], c.isDigit = true := by
        intro c hc
        rcases List.mem_append.mp hc with hc | hc
        · exact hnumber c hc
        · rwa [List.mem_singleton.mp hc]
      obtain ⟨body, hbody, hadds, hleft⟩ := ih hlonger h
      exact ⟨body, by rw [← hbody, List.append_assoc, List.singleton_append], hadds, hleft⟩
    · rw [if_neg hdigit] at h
      cases hparse : parseI64 number with
      | none => simp [hparse] at h
      | some m =>
        obtain ⟨hne, -, rfl⟩ := (parseI64_digits hnumber m).mp hparse
        cases hunit : unit ch with
        | none => simp [hparse, hunit] at h
        | some weight =>
          simp only [hparse, hunit, Int.toNat_natCast, Prod.mk.injEq] at h
          obtain ⟨body, hbody, hadds, hleft⟩ := ih (List.forall_mem_nil _) (Prod.ext rfl h.2)
          refine ⟨number ++ ch :: body, ?_, ?_, hleft⟩
          · rw [List.append_assoc, List.cons_append, ← hbody, List.nil_append]
          · rw [← h.1]
            exact .item hne hnumber hunit hadds

/-- A sum of items ends in a unit, and has only digits and units in it. -/
theorem Adds.mem {chars : List Char} {total : ℕ} (h : Adds unit chars total) :
    ∀ c ∈ chars, c.isDigit = true ∨ (unit c).isSome = true := by
  induction h with
  | nil => exact List.forall_mem_nil _
  | item hne hdigits hunit hrest ih =>
    intro c hc
    rcases List.mem_append.mp hc with hc | hc
    · exact .inl (hdigits c hc)
    · rcases List.mem_cons.mp hc with rfl | hc
      · exact .inr (by rw [hunit]; rfl)
      · exact ih c hc

theorem Adds.ends {chars : List Char} {total : ℕ} (h : Adds unit chars total) (hne : chars ≠ []) :
    ∃ before u, chars = before ++ [u] ∧ (unit u).isSome = true := by
  induction h with
  | nil => exact absurd rfl hne
  | item hdigits0 hdigits hunit hrest ih =>
    rename_i digits rest u weight total
    cases rest with
    | nil => exact ⟨digits, u, rfl, by rw [hunit]; rfl⟩
    | cons c rest =>
      obtain ⟨before, u', heq, hsome⟩ := ih (List.cons_ne_nil c rest)
      exact ⟨digits ++ u :: before, u', by rw [heq]; simp, hsome⟩

/-! ## The whole text -/

theorem dateUnit_digit {c : Char} (h : c.isDigit = true) : dateUnit c = none := by
  unfold dateUnit
  split <;> first | rfl | cases h

theorem readPart_first (rest : List Char) :
    readPart dateFactors rest {} =
      if (readItems dateUnit [] rest).1 < 2 ^ 63 then
        some ((readItems dateUnit [] rest).2.map fun left =>
          ⟨((readItems dateUnit [] rest).1 : ℕ), left⟩)
      else none := by
  have h := readPart_eq weighs_date rest [] (List.forall_mem_nil _) 0 (by decide)
  rwa [Nat.zero_add] at h

theorem parseDuration_eq {value rest : List Char} (hrest : (splitSign (trim value)).2 = 'P' :: rest) :
    parseDuration value =
      if (readWhole rest).1 < 2 ^ 63 then
        if (readWhole rest).2.2 = some [] then
          ((i64 ((splitSign (trim value)).1 * (readWhole rest).1)).bind Duration.seconds).map some
        else some none
      else none := by
  unfold parseDuration readWhole
  simp only [hrest]
  obtain ⟨datePart, timePart⟩ := splitTime rest
  rw [readPart_first]
  cases hdates : readItems dateUnit [] datePart with
  | mk dates carried =>
    dsimp only
    by_cases hfit : dates < 2 ^ 63
    · rw [if_pos hfit]
      cases carried with
      | none => simp [-Nat.reducePow, hfit]
      | some number =>
        obtain ⟨-, -, -, hnumber⟩ := adds_of_readItems (List.forall_mem_nil _) hdates
        cases timePart with
        | none =>
          by_cases hnil : number = []
          · simp only [hnil, hfit, Option.map_some, Option.bind_eq_bind, Option.bind_some, Option.elim_none,
              if_true, Option.map_bind]
            rfl
          · simp [-Nat.reducePow, hfit, hnil]
        | some part =>
          have htime := readPart_eq weighs_time part number hnumber dates hfit
          cases hitems : readItems timeUnit number part with
          | mk times left =>
            rw [hitems] at htime
            by_cases hsum : dates + times < 2 ^ 63
            · rw [if_pos hsum] at htime
              cases left with
              | none => simp [-Nat.reducePow, hsum, hitems, htime]
              | some left =>
                by_cases hnil : left = []
                · simp only [hsum, hnil, hitems, htime, Option.map_some, Option.bind_eq_bind, Option.bind_some,
                    Option.elim_some, if_true, Option.map_bind]
                  rfl
                · simp [-Nat.reducePow, hsum, hitems, htime, hnil]
            · rw [if_neg hsum] at htime
              simp [-Nat.reducePow, hsum, hitems, htime]
    · rw [if_neg hfit, Option.bind_eq_bind, Option.bind_none]
      cases carried with
      | none => rw [if_neg hfit]
      | some number =>
        cases timePart with
        | none => rw [if_neg hfit]
        | some part =>
          dsimp only
          rw [if_neg (by omega)]

/-! ## Exactness -/

theorem splitSign_sign (chars : List Char) : (splitSign chars).1 = 1 ∨ (splitSign chars).1 = -1 := by
  unfold splitSign
  split <;> simp

/-- A sum with a sign is a duration as long as its milliseconds fit. -/
theorem seconds_signed {sign : ℤ} (hsign : sign = 1 ∨ sign = -1) (n : ℕ) :
    (i64 (sign * n)).bind Duration.seconds =
      if n * 1000 < 2 ^ 63 then some (sign * n * 1000000000) else none := by
  have hrange : (-2 ^ 63 < sign * (n : ℤ) * 1000 ∧ sign * (n : ℤ) * 1000 < 2 ^ 63) ↔ n * 1000 < 2 ^ 63 := by
    rcases hsign with rfl | rfl <;> omega
  by_cases h64 : -2 ^ 63 ≤ sign * (n : ℤ) ∧ sign * (n : ℤ) < 2 ^ 63
  · rw [i64, if_pos h64, Option.bind_some, Duration.seconds]
    simp only [hrange]
  · rw [i64, if_neg h64, Option.bind_none, if_neg]
    rcases hsign with rfl | rfl <;> omega

theorem splitTime_none {date : List Char} (h : 'T' ∉ date) : splitTime date = (date, none) := by
  have hall : date.dropWhile (fun c => decide (c ≠ 'T')) = [] := by
    rw [List.dropWhile_eq_nil_iff]
    intro c hc
    exact decide_eq_true fun heq => h (heq ▸ hc)
  rw [splitTime, hall]

theorem splitTime_some {date : List Char} (h : 'T' ∉ date) (time : List Char) :
    splitTime (date ++ 'T' :: time) = (date, some time) := by
  have hplain : ∀ c ∈ date, decide (c ≠ 'T') = true := by
    intro c hc
    exact decide_eq_true fun heq => h (heq ▸ hc)
  rw [splitTime, List.dropWhile_append_of_pos hplain, List.takeWhile_append_of_pos hplain,
    List.dropWhile_cons_of_neg (by simp), List.takeWhile_cons_of_neg (by simp), List.append_nil]

theorem splitTime_eq (rest : List Char) :
    splitTime rest = (rest, none) ∨ ∃ date time, rest = date ++ 'T' :: time ∧ splitTime rest = (date, some time) := by
  by_cases h : 'T' ∈ rest
  · obtain ⟨date, time, rfl, hdate⟩ := List.eq_append_cons_of_mem h
    exact .inr ⟨date, time, rfl, splitTime_some hdate time⟩
  · exact .inl (splitTime_none h)

theorem not_mem_T {date : List Char} {dates : ℕ} (h : Adds dateUnit date dates) : 'T' ∉ date := by
  intro hmem
  rcases h.mem 'T' hmem with hdigit | hunit
  · exact absurd hdigit (by decide)
  · exact absurd hunit (by decide)

/-- No digits are left after a sum of items. -/
theorem left_of_adds {date left : List Char} {dates total : ℕ} (h : Adds dateUnit date dates)
    (hread : readItems dateUnit [] date = (total, some left)) : left = [] := by
  obtain ⟨body, hbody, -, hdigits⟩ := adds_of_readItems (List.forall_mem_nil _) hread
  by_contra hne
  rw [List.nil_append] at hbody
  have hdate : date ≠ [] := by simp [hbody, hne]
  obtain ⟨before, u, hends, hunit⟩ := h.ends hdate
  have hlast : left.getLast hne = u := by
    have hsame : body ++ left = before ++ [u] := by rw [← hbody, hends]
    rw [← List.getLast_append_of_right_ne_nil body left hne]
    simp [hsame]
  have hdigit := hdigits _ (List.getLast_mem hne)
  rw [hlast] at hdigit
  rw [dateUnit_digit hdigit] at hunit
  cases hunit

/-- Of a text that leaves nothing, what the parts leave: the second reads what the first left. -/
theorem readWhole_cases {rest number left : List Char} {total : ℕ}
    (h : readWhole rest = (total, some number, some left)) :
    (splitTime rest = (rest, none) ∧ number = left ∧ readItems dateUnit [] rest = (total, some left)) ∨
      ∃ date time dates times, rest = date ++ 'T' :: time ∧ splitTime rest = (date, some time) ∧
        total = dates + times ∧ readItems dateUnit [] date = (dates, some number) ∧
        readItems timeUnit number time = (times, some left) := by
  unfold readWhole at h
  rcases splitTime_eq rest with hsplit | ⟨date, time, hrest, hsplit⟩
  · rw [hsplit] at h
    dsimp only at h
    cases hdates : readItems dateUnit [] rest with
    | mk dates carried =>
      rw [hdates] at h
      cases carried with
      | none => cases h
      | some carried =>
        cases h
        exact .inl ⟨hsplit, rfl, rfl⟩
  · rw [hsplit] at h
    cases hdates : readItems dateUnit [] date with
    | mk dates carried =>
      simp only [hdates] at h
      cases carried with
      | none => cases h
      | some carried =>
        obtain ⟨htotal, hcarried, hleft⟩ : dates + (readItems timeUnit carried time).1 = total ∧
            carried = number ∧ (readItems timeUnit carried time).2 = some left := by
          simpa using h
        subst hcarried
        exact .inr ⟨date, time, dates, _, hrest, hsplit, htotal.symm, hdates, Prod.ext rfl hleft⟩

/-- What is read is what a text spells, where no digits go from the date part to the time part. -/
theorem spells_of_readWhole {value rest : List Char} {total : ℕ}
    (hrest : (splitSign (trim value)).2 = 'P' :: rest) (h : readWhole rest = (total, some [], some [])) :
    Spells value ((splitSign (trim value)).1 * total) := by
  rcases readWhole_cases h with ⟨-, -, hdates⟩ | ⟨date, time, dates, times, rfl, -, rfl, hdates, htimes⟩
  · obtain ⟨body, hbody, hadds, -⟩ := adds_of_readItems (List.forall_mem_nil _) hdates
    rw [List.nil_append, List.append_nil] at hbody
    exact ⟨rest, total, total, hbody ▸ hadds, rfl, .inl ⟨hrest, rfl⟩⟩
  · obtain ⟨body, hbody, hadds, -⟩ := adds_of_readItems (List.forall_mem_nil _) hdates
    obtain ⟨body', hbody', hadds', -⟩ := adds_of_readItems (List.forall_mem_nil _) htimes
    rw [List.nil_append, List.append_nil] at hbody hbody'
    exact ⟨date, dates, dates + times, hbody ▸ hadds, rfl, .inr ⟨time, times, hbody' ▸ hadds', hrest, rfl⟩⟩

theorem carried_of_spells {value rest number left : List Char} {total : ℕ} {n : ℤ}
    (hrest : (splitSign (trim value)).2 = 'P' :: rest)
    (h : readWhole rest = (total, some number, some left)) (hspells : Spells value n) : number = [] := by
  obtain ⟨date, dates, -, hdate, -, ⟨hwhole, -⟩ | ⟨time, -, -, hwhole, -⟩⟩ := hspells
  · obtain rfl : rest = date := by simpa [hrest] using hwhole
    rcases readWhole_cases h with ⟨-, rfl, hread⟩ | ⟨_, _, _, _, -, hsplit, -, -, -⟩
    · exact left_of_adds hdate hread
    · simp [splitTime_none (not_mem_T hdate)] at hsplit
  · obtain rfl : rest = date ++ 'T' :: time := by simpa [hrest] using hwhole
    have hsome := splitTime_some (not_mem_T hdate) time
    rcases readWhole_cases h with ⟨hsplit, -, -⟩ | ⟨date', _, _, _, -, hsplit, -, hread, -⟩
    · simp [hsome] at hsplit
    · obtain ⟨rfl, -⟩ : date = date' ∧ _ := Prod.mk.inj (hsome.symm.trans hsplit)
      exact left_of_adds hdate hread

theorem readWhole_carried {rest left : List Char} (h : (readWhole rest).2.2 = some left) :
    ∃ number, (readWhole rest).2.1 = some number := by
  unfold readWhole at h ⊢
  cases hdates : readItems dateUnit [] (splitTime rest).1 with
  | mk dates carried =>
    cases carried with
    | none => simp [hdates] at h
    | some carried =>
      refine ⟨carried, ?_⟩
      simp only [hdates]
      split <;> rfl

theorem parseDuration_other {value : List Char} (h : (splitSign (trim value)).2.head? ≠ some 'P') :
    parseDuration value = some none := by
  unfold parseDuration
  dsimp only
  split
  · rename_i heq
    exact absurd (congrArg List.head? heq) h
  · rfl

theorem stated_other {value : List Char} (h : (splitSign (trim value)).2.head? ≠ some 'P') :
    stated value = none ∧ InRange value ∧ Separated value := by
  unfold stated InRange Separated
  split
  · rename_i heq
    exact absurd (congrArg List.head? heq) h
  · exact ⟨rfl, trivial, trivial⟩

theorem stated_eq {value rest : List Char} (hrest : (splitSign (trim value)).2 = 'P' :: rest) :
    stated value = if (readWhole rest).2.2 = some [] then
      some ((splitSign (trim value)).1 * (readWhole rest).1 * 1000000000) else none := by
  unfold stated
  rw [hrest]
  rfl

theorem inRange_iff {value rest : List Char} (hrest : (splitSign (trim value)).2 = 'P' :: rest) :
    InRange value ↔ (readWhole rest).1 < 2 ^ 63 ∧
      ((readWhole rest).2.2 = some [] → (readWhole rest).1 * 1000 < 2 ^ 63) := by
  unfold InRange
  rw [hrest]
  exact Iff.rfl

theorem separated_iff {value rest : List Char} (hrest : (splitSign (trim value)).2 = 'P' :: rest) :
    Separated value ↔ ((readWhole rest).2.2 = some [] → (readWhole rest).2.1 = some []) := by
  unfold Separated
  rw [hrest]
  exact Iff.rfl

/-- In range, a text is read as what it states; out of range, the reading panics. -/
theorem parseDuration_of_inRange {value : List Char} (h : InRange value) :
    parseDuration value = some (stated value) := by
  by_cases hP : (splitSign (trim value)).2.head? = some 'P'
  · obtain ⟨rest, hrest⟩ := List.head?_eq_some_iff.mp hP
    obtain ⟨hfit, hms⟩ := (inRange_iff hrest).mp h
    rw [parseDuration_eq hrest, stated_eq hrest, seconds_signed (splitSign_sign _)]
    rw [if_pos hfit]
    by_cases hleft : (readWhole rest).2.2 = some []
    · rw [if_pos hleft, if_pos hleft, if_pos (hms hleft)]
      rfl
    · rw [if_neg hleft, if_neg hleft]
  · rw [parseDuration_other hP, (stated_other hP).1]

theorem inRange_of_parseDuration {value : List Char} {duration : Option ℤ}
    (h : parseDuration value = some duration) : InRange value := by
  by_cases hP : (splitSign (trim value)).2.head? = some 'P'
  · obtain ⟨rest, hrest⟩ := List.head?_eq_some_iff.mp hP
    rw [parseDuration_eq hrest, seconds_signed (splitSign_sign _)] at h
    rw [inRange_iff hrest]
    by_cases hfit : (readWhole rest).1 < 2 ^ 63
    · refine ⟨hfit, fun hleft => ?_⟩
      rw [if_pos hfit, if_pos hleft] at h
      by_contra hms
      rw [if_neg hms] at h
      cases h
    · rw [if_neg hfit] at h
      cases h
  · exact (stated_other hP).2.1

theorem spells_of_stated {value : List Char} {d : ℤ} (hsep : Separated value) (h : stated value = some d) :
    ∃ n, Spells value n ∧ d = n * 1000000000 := by
  by_cases hP : (splitSign (trim value)).2.head? = some 'P'
  · obtain ⟨rest, hrest⟩ := List.head?_eq_some_iff.mp hP
    rw [stated_eq hrest] at h
    rw [separated_iff hrest] at hsep
    by_cases hleft : (readWhole rest).2.2 = some []
    · rw [if_pos hleft] at h
      exact ⟨_, spells_of_readWhole hrest (Prod.ext rfl (Prod.ext (hsep hleft) hleft)),
        (Option.some.inj h).symm⟩
    · rw [if_neg hleft] at h
      cases h
  · rw [(stated_other hP).1] at h
    cases h

/-- A duration that is stated, and is the sum that its text spells, has its parts separated. -/
theorem separated_of_spells {value : List Char}
    (h : ∀ d, stated value = some d → ∃ n, Spells value n ∧ d = n * 1000000000) : Separated value := by
  by_cases hP : (splitSign (trim value)).2.head? = some 'P'
  · obtain ⟨rest, hrest⟩ := List.head?_eq_some_iff.mp hP
    rw [stated_eq hrest] at h
    rw [separated_iff hrest]
    intro hleft
    obtain ⟨n, hspells, -⟩ := h _ (if_pos hleft)
    obtain ⟨number, hnumber⟩ := readWhole_carried hleft
    rwa [carried_of_spells hrest (Prod.ext rfl (Prod.ext hnumber hleft)) hspells] at hnumber
  · exact (stated_other hP).2.2

/-- A text is read exactly, and nothing overflows, when what it says is in range and its parts are
separated. -/
theorem exact_iff (value : List Char) : Exact value ↔ InRange value ∧ Separated value := by
  constructor
  · rintro ⟨duration, hparse, hexact⟩
    have hrange := inRange_of_parseDuration hparse
    rw [parseDuration_of_inRange hrange, Option.some_inj] at hparse
    exact ⟨hrange, separated_of_spells fun d hd => hexact d (hparse ▸ hd)⟩
  · rintro ⟨hrange, hsep⟩
    exact ⟨stated value, parseDuration_of_inRange hrange, fun d hd => spells_of_stated hsep hd⟩

end Haruspex.Calendar
