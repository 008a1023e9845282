import Haruspex.FsTools.TextRead
import Mathlib.Data.List.TakeWhile

/-! The group id that a command in a distro reports first on its stderr (`code_tools/wsl.rs`). An operation
that panics in Rust is `none` here. -/
namespace Haruspex.Wsl
open FsTools (slice)
open Rust (fromUtf8 trim parseDigits parseDigits_eq_some)
set_option autoImplicit false

/-! ## The reader -/

def newline : UInt8 := 0x0A

/-- `PGID_MARK`, `\x1eharuspex-pgid `. -/
def pgidMark : List UInt8 :=
  [0x1E, 0x68, 0x61, 0x72, 0x75, 0x73, 0x70, 0x65, 0x78, 0x2D, 0x70, 0x67, 0x69, 0x64, 0x20]

/-- `str::parse::<u32>` -/
def parseU32 (cs : List Char) : Option ℕ :=
  (parseDigits (if cs.head? = some '+' then cs.tail else cs)).filter (· < 2 ^ 32)

/-- `Vec::split_off`, of which what was split off is kept. -/
def splitOff (bytes : List UInt8) (place : ℕ) : Option (List UInt8) :=
  if place ≤ bytes.length then some (bytes.drop place) else none

structure PgidReader where
  head : List UInt8 := []
  done : Bool := false

/-- The group id of a line, of which `number` is what follows the mark. -/
def readNumber (number : List UInt8) : Option ℕ :=
  ((fromUtf8 number).bind (fun s => parseU32 (trim s.toList))).filter (1 < ·)

/-- What a chunk of stderr gives: a group id, and the bytes that are the command's own. -/
def PgidReader.feed (r : PgidReader) (chunk : List UInt8) :
    Option ((Option ℕ × List UInt8) × PgidReader) :=
  if r.done then some ((none, chunk), r)
  else do
    let head := r.head ++ chunk
    let n := min head.length pgidMark.length
    let start ← slice head 0 n
    let mark ← slice pgidMark 0 n
    if start ≠ mark then some ((none, head), ⟨[], true⟩)
    else
      match head.findIdx? (· = newline) with
      | none => some ((none, []), ⟨head, false⟩)
      | some nl => do
        let number ← slice head pgidMark.length nl
        let rest ← splitOff head (nl + 1)
        some ((readNumber number, rest), ⟨[], true⟩)

def PgidReader.finish (r : PgidReader) : List UInt8 × PgidReader := (r.head, ⟨[], true⟩)

/-- A whole stream, chunk by chunk: the group ids that are reported, and all that is passed through. -/
def PgidReader.readAll (r : PgidReader) : List (List UInt8) → Option (List ℕ × List UInt8)
  | [] => some ([], r.finish.1)
  | chunk :: chunks => do
    let ((pgid, own), r) ← r.feed chunk
    let (pgids, rest) ← r.readAll chunks
    some (pgid.toList ++ pgids, own ++ rest)

/-! ## What it is for -/

/-- The first line, when it is complete, and what comes after it. -/
def firstLine (stream : List UInt8) : Option (List UInt8 × List UInt8) :=
  match stream.dropWhile (· ≠ newline) with
  | [] => none
  | _ :: rest => some (stream.takeWhile (· ≠ newline), rest)

/-- The stream without its first line, where that is complete and starts with the mark. -/
def commandsOwn (stream : List UInt8) : List UInt8 :=
  match firstLine stream with
  | some (line, rest) => if pgidMark <+: line then rest else stream
  | none => stream

/-- A number as it is written: digits, with or without a plus sign. -/
def IsNumeral (cs : List Char) (n : ℕ) : Prop :=
  ∃ digits, (cs = digits ∨ cs = '+' :: digits) ∧ digits ≠ [] ∧ (∀ c ∈ digits, c.isDigit = true) ∧
    n = Nat.ofDigitChars 10 digits 0

/-- The first line is complete, starts with the mark, and goes on with this number, with or without white
space around it. -/
def Names (stream : List UInt8) (n : ℕ) : Prop :=
  ∃ number rest text, firstLine stream = some (pgidMark ++ number, rest) ∧ fromUtf8 number = some text ∧
    IsNumeral (trim text.toList) n

/-- The group id of a stream. -/
def groupId (stream : List UInt8) : Option ℕ :=
  match firstLine stream with
  | some (line, _) =>
    if pgidMark <+: line then readNumber (line.drop pgidMark.length) else none
  | none => none

/-! ## Lines -/

variable {stream before number rest head chunk : List UInt8}

theorem firstLine_eq_none (h : newline ∉ stream) : firstLine stream = none := by
  unfold firstLine
  have hall : stream.dropWhile (fun b => decide (b ≠ newline)) = [] := by
    rw [List.dropWhile_eq_nil_iff]
    intro b hb
    exact decide_eq_true fun heq => h (heq ▸ hb)
  rw [hall]

theorem firstLine_append (h : newline ∉ before) (rest : List UInt8) :
    firstLine (before ++ newline :: rest) = some (before, rest) := by
  have hplain : ∀ b ∈ before, decide (b ≠ newline) = true := by
    intro b hb
    exact decide_eq_true fun heq => h (heq ▸ hb)
  unfold firstLine
  rw [List.dropWhile_append_of_pos hplain, List.takeWhile_append_of_pos hplain,
    List.dropWhile_cons_of_neg (by simp), List.takeWhile_cons_of_neg (by simp), List.append_nil]

theorem newline_not_mem_pgidMark : newline ∉ pgidMark := by decide

theorem newline_not_mem_line (h : newline ∉ number) : newline ∉ pgidMark ++ number := by
  rw [List.mem_append, not_or]
  exact ⟨newline_not_mem_pgidMark, h⟩

/-! ## Numbers -/

theorem parseU32_eq_some {cs : List Char} {n : ℕ} :
    parseU32 cs = some n ↔ IsNumeral cs n ∧ n < 2 ^ 32 := by
  unfold parseU32
  rw [Option.filter_eq_some_iff, parseDigits_eq_some, decide_eq_true_iff]
  refine and_congr_left fun _ => ?_
  constructor
  · rintro ⟨hne, hdigits, hn⟩
    split at hne
    · rename_i hplus
      rw [if_pos hplus] at hdigits hn
      cases cs with
      | nil => cases hplus
      | cons c cs =>
        obtain rfl := Option.some.inj hplus
        exact ⟨cs, .inr rfl, hne, hdigits, hn⟩
    · rename_i hplus
      rw [if_neg hplus] at hdigits hn
      exact ⟨cs, .inl rfl, hne, hdigits, hn⟩
  · rintro ⟨digits, rfl | rfl, hne, hdigits, hn⟩
    · have hplain : ¬ cs.head? = some '+' := by
        intro hplus
        have hdigit := hdigits '+' (List.mem_of_mem_head? hplus)
        exact absurd hdigit (by decide)
      rw [if_neg hplain]
      exact ⟨hne, hdigits, hn⟩
    · rw [List.head?_cons, if_pos rfl, List.tail_cons]
      exact ⟨hne, hdigits, hn⟩

theorem readNumber_eq_some {n : ℕ} :
    readNumber number = some n ↔
      (∃ text, fromUtf8 number = some text ∧ IsNumeral (trim text.toList) n) ∧ 1 < n ∧ n < 2 ^ 32 := by
  unfold readNumber
  rw [Option.filter_eq_some_iff, Option.bind_eq_some_iff, decide_eq_true_iff]
  simp only [parseU32_eq_some]
  constructor
  · rintro ⟨⟨text, htext, hnumeral, hlt⟩, hgt⟩
    exact ⟨⟨text, htext, hnumeral⟩, hgt, hlt⟩
  · rintro ⟨⟨text, htext, hnumeral⟩, hgt, hlt⟩
    exact ⟨⟨text, htext, hnumeral, hlt⟩, hgt⟩

theorem groupId_eq_some {n : ℕ} : groupId stream = some n ↔ Names stream n ∧ 1 < n ∧ n < 2 ^ 32 := by
  unfold groupId Names
  cases hline : firstLine stream with
  | none => simp
  | some pair =>
    obtain ⟨line, rest⟩ := pair
    dsimp only
    constructor
    · intro h
      split at h
      · rename_i hmark
        obtain ⟨number, rfl⟩ := hmark
        rw [List.drop_left] at h
        obtain ⟨⟨text, htext, hnumeral⟩, hbounds⟩ := readNumber_eq_some.mp h
        exact ⟨⟨number, rest, text, rfl, htext, hnumeral⟩, hbounds⟩
      · cases h
    · rintro ⟨⟨number, rest', text, heq, htext, hnumeral⟩, hbounds⟩
      obtain ⟨rfl, rfl⟩ := Prod.mk.inj (Option.some.inj heq)
      rw [if_pos (List.prefix_append pgidMark number), List.drop_left]
      exact readNumber_eq_some.mpr ⟨⟨text, htext, hnumeral⟩, hbounds⟩

/-! ## What the specification says of a stream -/

theorem groupId_of_not_mem (h : newline ∉ stream) : groupId stream = none := by
  rw [groupId, firstLine_eq_none h]

theorem commandsOwn_of_not_mem (h : newline ∉ stream) : commandsOwn stream = stream := by
  rw [commandsOwn, firstLine_eq_none h]

/-- A first line without the mark. -/
theorem unmarked (h : ¬ pgidMark <+: stream) : groupId stream = none ∧ commandsOwn stream = stream := by
  by_cases hline : newline ∈ stream
  · obtain ⟨line, rest, rfl, hplain⟩ := List.eq_append_cons_of_mem hline
    have hmark : ¬ pgidMark <+: line := fun hmark => h (hmark.trans (List.prefix_append _ _))
    rw [groupId, commandsOwn, firstLine_append hplain]
    exact ⟨if_neg hmark, if_neg hmark⟩
  · exact ⟨groupId_of_not_mem hline, commandsOwn_of_not_mem hline⟩

theorem marked (h : newline ∉ number) (rest : List UInt8) :
    groupId (pgidMark ++ number ++ newline :: rest) = readNumber number ∧
      commandsOwn (pgidMark ++ number ++ newline :: rest) = rest := by
  rw [groupId, commandsOwn, firstLine_append (newline_not_mem_line h)]
  dsimp only
  rw [if_pos (List.prefix_append pgidMark number), if_pos (List.prefix_append pgidMark number),
    List.drop_left]
  exact ⟨rfl, rfl⟩

/-! ## The reader on a stream -/

theorem slice_front {bytes : List UInt8} {n : ℕ} (h : n ≤ bytes.length) :
    slice bytes 0 n = some (bytes.take n) := by
  rw [slice, if_pos ⟨Nat.zero_le n, h⟩, List.drop_zero]

/-- What is held back: part of the mark, or the mark and part of the line. -/
structure Waits (head : List UInt8) : Prop where
  fits : head <+: pgidMark ∨ pgidMark <+: head
  open_line : newline ∉ head

theorem take_eq_iff (head : List UInt8) :
    head.take (min head.length pgidMark.length) = pgidMark.take (min head.length pgidMark.length) ↔
      head <+: pgidMark ∨ pgidMark <+: head := by
  cases Nat.le_total head.length pgidMark.length with
  | inl hle =>
    rw [Nat.min_eq_left hle, List.take_length, ← List.prefix_iff_eq_take]
    refine ⟨.inl, fun h => h.elim id fun hmark => ?_⟩
    rw [hmark.eq_of_length_le hle]
  | inr hle =>
    rw [Nat.min_eq_right hle, List.take_length, eq_comm, ← List.prefix_iff_eq_take]
    refine ⟨.inr, fun h => h.elim (fun hhead => ?_) id⟩
    rw [hhead.eq_of_length_le hle]

theorem prefix_of_line {line : List UInt8} (h : pgidMark <+: line ++ newline :: rest) :
    pgidMark <+: line := by
  rcases Nat.lt_or_ge line.length pgidMark.length with hlt | hle
  · have hin : line ++ [newline] <+: pgidMark := by
      refine @List.prefix_of_prefix_length_le _ _ _ (line ++ newline :: rest) ?_ h ?_
      · exact ⟨rest, by simp⟩
      · rw [List.length_append, List.length_singleton]
        omega
    exact absurd (hin.subset (by simp)) newline_not_mem_pgidMark
  · exact List.prefix_of_prefix_length_le h (List.prefix_append _ _) hle

/-- A chunk, while the reader waits. -/
theorem feed_eq (head chunk : List UInt8) :
    PgidReader.feed ⟨head, false⟩ chunk =
      if head ++ chunk <+: pgidMark ∨ pgidMark <+: head ++ chunk then
        match (head ++ chunk).findIdx? (· = newline) with
        | none => some ((none, []), ⟨head ++ chunk, false⟩)
        | some nl => do
          let number ← slice (head ++ chunk) pgidMark.length nl
          let rest ← splitOff (head ++ chunk) (nl + 1)
          some ((readNumber number, rest), ⟨[], true⟩)
      else some ((none, head ++ chunk), ⟨[], true⟩) := by
  unfold PgidReader.feed
  simp only [Bool.false_eq_true, if_false, slice_front (Nat.min_le_left _ _),
    slice_front (Nat.min_le_right _ _), Option.bind_eq_bind, Option.bind_some, ne_eq, ite_not,
    take_eq_iff]

theorem feed_waits (h : Waits (head ++ chunk)) :
    PgidReader.feed ⟨head, false⟩ chunk = some ((none, []), ⟨head ++ chunk, false⟩) := by
  have hnone : (head ++ chunk).findIdx? (fun b => decide (b = newline)) = none := by
    rw [List.findIdx?_eq_none_iff]
    intro b hb
    exact decide_eq_false fun heq => h.open_line (heq ▸ hb)
  rw [feed_eq, if_pos h.fits, hnone]

theorem feed_line (hwhole : head ++ chunk = pgidMark ++ number ++ newline :: rest)
    (hplain : newline ∉ number) :
    PgidReader.feed ⟨head, false⟩ chunk = some ((readNumber number, rest), ⟨[], true⟩) := by
  have hnone : (pgidMark ++ number).findIdx? (fun b => decide (b = newline)) = none := by
    rw [List.findIdx?_eq_none_iff]
    intro b hb
    exact decide_eq_false fun heq => newline_not_mem_line hplain (heq ▸ hb)
  have hfound : (head ++ chunk).findIdx? (fun b => decide (b = newline)) =
      some (pgidMark ++ number).length := by
    rw [hwhole, List.findIdx?_append, hnone, List.findIdx?_cons]
    simp
  have hmark : pgidMark <+: head ++ chunk := by
    rw [hwhole, List.append_assoc]
    exact List.prefix_append pgidMark _
  have hnumber : slice (head ++ chunk) pgidMark.length (pgidMark ++ number).length = some number := by
    rw [slice, hwhole, if_pos (by simp), List.take_left, List.drop_left]
  have hrest : splitOff (head ++ chunk) ((pgidMark ++ number).length + 1) = some rest := by
    have hle : (pgidMark ++ number).length + 1 ≤ (pgidMark ++ number ++ newline :: rest).length := by
      simp only [List.length_append, List.length_cons]
      omega
    rw [splitOff, hwhole, if_pos hle, ← List.drop_drop, List.drop_left]
    rfl
  rw [feed_eq, if_pos (.inr hmark), hfound]
  dsimp only
  rw [hnumber, hrest]
  rfl

theorem readAll_done (chunks : List (List UInt8)) :
    PgidReader.readAll ⟨[], true⟩ chunks = some ([], chunks.flatten) := by
  induction chunks with
  | nil => rfl
  | cons chunk chunks ih =>
    rw [PgidReader.readAll, PgidReader.feed, if_pos rfl]
    simp [ih]

theorem readAll_waits (h : Waits head) (chunks : List (List UInt8)) :
    PgidReader.readAll ⟨head, false⟩ chunks =
      some ((groupId (head ++ chunks.flatten)).toList, commandsOwn (head ++ chunks.flatten)) := by
  induction chunks generalizing head with
  | nil =>
    rw [List.flatten_nil, List.append_nil, groupId_of_not_mem h.open_line,
      commandsOwn_of_not_mem h.open_line]
    rfl
  | cons chunk chunks ih =>
    rw [List.flatten_cons, ← List.append_assoc, PgidReader.readAll]
    by_cases hfits : head ++ chunk <+: pgidMark ∨ pgidMark <+: head ++ chunk
    · by_cases hline : newline ∈ head ++ chunk
      · -- The line is complete: it has the mark, which has no newline in it.
        have hmark : pgidMark <+: head ++ chunk :=
          hfits.resolve_left fun hin => newline_not_mem_pgidMark (hin.subset hline)
        obtain ⟨line, rest, hwhole, hplain⟩ := List.eq_append_cons_of_mem hline
        rw [hwhole] at hmark
        obtain ⟨number, rfl⟩ := prefix_of_line hmark
        rw [List.mem_append, not_or] at hplain
        obtain ⟨hid, hown⟩ := marked hplain.2 (rest ++ chunks.flatten)
        rw [feed_line hwhole hplain.2, hwhole, List.append_assoc, List.cons_append, hid, hown]
        simp [readAll_done]
      · rw [feed_waits ⟨hfits, hline⟩]
        simp [ih ⟨hfits, hline⟩]
    · have hother : ¬ pgidMark <+: head ++ chunk ++ chunks.flatten := by
        intro hmark
        exact hfits (List.prefix_or_prefix_of_prefix (List.prefix_append _ _) hmark)
      obtain ⟨hid, hown⟩ := unmarked hother
      rw [feed_eq, if_neg hfits, hid, hown]
      simp [readAll_done]

/-! ## Every cutting -/

/-- However a stream is cut, its first line is taken off when it is complete and starts with the mark, and
the group id is what that line names: a number above 1, in 32 bits. -/
theorem readAll_of_stream (chunks : List (List UInt8)) :
    PgidReader.readAll {} chunks =
        some ((groupId chunks.flatten).toList, commandsOwn chunks.flatten) ∧
      ∀ n, groupId chunks.flatten = some n ↔ Names chunks.flatten n ∧ 1 < n ∧ n < 2 ^ 32 :=
  ⟨readAll_waits ⟨.inl List.nil_prefix, List.not_mem_nil⟩ chunks, fun _ => groupId_eq_some⟩

/-- A number that 32 bits do not hold is not reported. -/
theorem not_reported : ¬ ∀ (chunks : List (List UInt8)), ∃ pgids,
    PgidReader.readAll {} chunks = some (pgids, commandsOwn chunks.flatten) ∧
      ∀ n, n ∈ pgids ↔ Names chunks.flatten n ∧ 1 < n := by
  intro h
  let digits : List UInt8 := [0x34, 0x32, 0x39, 0x34, 0x39, 0x36, 0x37, 0x32, 0x39, 0x36]
  obtain ⟨pgids, hread, hall⟩ := h [pgidMark ++ digits ++ [newline]]
  have hnone : PgidReader.readAll {} [pgidMark ++ digits ++ [newline]] = some ([], []) := by
    decide +kernel
  have hnames : Names [pgidMark ++ digits ++ [newline]].flatten (2 ^ 32) := by
    refine ⟨digits, [], "4294967296", by decide +kernel, by decide +kernel, ?_⟩
    exact ⟨['4', '2', '9', '4', '9', '6', '7', '2', '9', '6'], .inl (by decide +kernel), nofun,
      by simp, by decide +kernel⟩
  rw [hnone] at hread
  obtain ⟨rfl, -⟩ := Prod.mk.inj (Option.some.inj hread)
  cases (hall (2 ^ 32)).mpr ⟨hnames, by decide⟩

end Haruspex.Wsl
