import Mathlib.Algebra.Order.Floor.Ring
import Mathlib.Data.Rat.Floor
import Mathlib.Tactic.FieldSimp
import Mathlib.Tactic.Linarith
import Mathlib.Tactic.Ring
import Haruspex.Library.Pages
import Haruspex.Rust.Text

/-! Captions of a line of speech (`video/subtitles.rs`), with times as exact numbers. -/
namespace Haruspex.Video
open Pages
open Rust (byteLen splitWhitespace IsWord)
set_option autoImplicit false

/-! ## Words into lines -/

/-- `LINE_CHARS` -/
def lineChars : ℕ := 42

/-- `MAX_LINES` -/
def maxLines : ℕ := 2

/-- `MAX_CUE_SECS` -/
def maxCueSecs : ℚ := 7

/-- A word goes on the last line, if it fits there. -/
def wrapWord (lines : List (List Char)) (w : List Char) : List (List Char) :=
  match lines.getLast? with
  | some l =>
    if byteLen l + 1 + byteLen w ≤ lineChars then lines.dropLast ++ [l ++ ' ' :: w] else lines ++ [w]
  | none => lines ++ [w]

def wrap (words : List (List Char)) : List (List Char) := words.foldl wrapWord []

/-! ## Captions -/

/-- A line of speech. -/
structure Line where
  start : ℚ
  stop : ℚ
  text : List Char

structure Cue where
  start : ℚ
  stop : ℚ
  text : List Char
  deriving DecidableEq

def divCeil (a b : ℕ) : ℕ := (a + b - 1) / b

/-- The captions of some words each, one after another. -/
def cuesFrom (duration total : ℚ) : ℚ → List (List (List Char)) → List Cue
  | _, [] => []
  | start, chunk :: chunks =>
    let span := duration * chunk.length / total
    ⟨start, start + span, ['\n'].intercalate (wrap chunk)⟩ :: cuesFrom duration total (start + span) chunks

def cues (line : Line) : List Cue :=
  let words := splitWhitespace line.text
  if words = [] then []
  else
    let wrapped := wrap words
    let byText := divCeil wrapped.length maxLines
    let duration := max (line.stop - line.start) 0
    let byTime := ⌈duration / maxCueSecs⌉₊
    let pieces := min (max (max byText byTime) 1) words.length
    let per := divCeil words.length pieces
    cuesFrom duration words.length line.start (pages per words)

/-! ## What is said -/

theorem wrapWord_concat (lines : List (List Char)) (l w : List Char) :
    wrapWord (lines ++ [l]) w =
      if byteLen l + 1 + byteLen w ≤ lineChars then lines ++ [l ++ ' ' :: w] else lines ++ [l] ++ [w] := by
  unfold wrapWord
  rw [List.getLast?_concat, List.dropLast_concat]

theorem intercalate_concat (c : Char) {lines : List (List Char)} (h : lines ≠ []) (l : List Char) :
    [c].intercalate (lines ++ [l]) = [c].intercalate lines ++ c :: l := by
  induction lines with
  | nil => exact absurd rfl h
  | cons first lines ih =>
    cases lines with
    | nil => simp [List.intercalate]
    | cons second lines =>
      have hrest := ih (List.cons_ne_nil second lines)
      rw [List.cons_append, List.intercalate_cons_of_ne_nil (by simp), hrest,
        List.intercalate_cons_of_ne_nil (List.cons_ne_nil second lines), List.append_assoc, List.append_assoc,
        List.append_assoc]

/-- A further word is written after white space. -/
theorem intercalate_wrapWord (lines : List (List Char)) (l w : List Char) :
    ∃ c, Rust.isWhitespace c = true ∧
      ['\n'].intercalate (wrapWord (lines ++ [l]) w) = ['\n'].intercalate (lines ++ [l]) ++ c :: w := by
  rw [wrapWord_concat]
  split
  · refine ⟨' ', by decide, ?_⟩
    by_cases hlines : lines = []
    · rw [hlines]
      simp [List.intercalate]
    · rw [intercalate_concat '\n' hlines, intercalate_concat '\n' hlines]
      simp
  · exact ⟨'\n', by decide, intercalate_concat '\n' (by simp) w⟩

theorem wrapWord_ne_nil (lines : List (List Char)) (w : List Char) : wrapWord lines w ≠ [] := by
  unfold wrapWord
  split
  · split <;> simp
  · simp

/-- The words of wrapped text are those that were wrapped. -/
theorem splitWhitespace_foldl_wrapWord {words : List (List Char)} (hwords : ∀ w ∈ words, IsWord w)
    {lines : List (List Char)} (h : lines ≠ []) :
    splitWhitespace (['\n'].intercalate (words.foldl wrapWord lines)) =
      splitWhitespace (['\n'].intercalate lines) ++ words := by
  induction words generalizing lines with
  | nil => simp
  | cons w words ih =>
    obtain hnil | ⟨front, l, rfl⟩ := List.eq_nil_or_concat' lines
    · exact absurd hnil h
    obtain ⟨c, hc, htext⟩ := intercalate_wrapWord front l w
    have hw := hwords w List.mem_cons_self
    rw [List.foldl_cons, ih (fun v hv => hwords v (List.mem_cons_of_mem w hv)) (wrapWord_ne_nil _ w), htext,
      Rust.splitWhitespace_snoc hc hw, List.append_assoc, List.singleton_append]

theorem splitWhitespace_wrap {words : List (List Char)} (hwords : ∀ w ∈ words, IsWord w) :
    splitWhitespace (['\n'].intercalate (wrap words)) = words := by
  cases words with
  | nil => rfl
  | cons w words =>
    have hw := hwords w List.mem_cons_self
    have hfirst : splitWhitespace (['\n'].intercalate [w]) = [w] := by
      rw [List.intercalate_singleton]
      exact Rust.splitWhitespace_word hw
    have hfold := splitWhitespace_foldl_wrapWord (fun v hv => hwords v (List.mem_cons_of_mem w hv))
      (List.cons_ne_nil w [])
    rw [hfirst] at hfold
    exact hfold

/-- No wrapped line has a line feed. -/
theorem not_mem_foldl_wrapWord {words lines : List (List Char)} (hwords : ∀ w ∈ words, IsWord w)
    (h : ∀ l ∈ lines, '\n' ∉ l) : ∀ l ∈ words.foldl wrapWord lines, '\n' ∉ l := by
  induction words generalizing lines with
  | nil => exact h
  | cons w words ih =>
    have hw : '\n' ∉ w := by
      intro hmem
      have hspace := (hwords w List.mem_cons_self).2 '\n' hmem
      revert hspace
      decide
    refine ih (fun v hv => hwords v (List.mem_cons_of_mem w hv)) fun l hl => ?_
    obtain hnil | ⟨front, last, rfl⟩ := List.eq_nil_or_concat' lines
    · rw [hnil] at hl
      obtain rfl := List.mem_singleton.mp hl
      exact hw
    · have hlast := h last (List.mem_append_right front List.mem_cons_self)
      rw [wrapWord_concat] at hl
      split at hl
      · obtain hl | hl := List.mem_append.mp hl
        · exact h l (List.mem_append_left [last] hl)
        · obtain rfl := List.mem_singleton.mp hl
          simp [hlast, hw]
      · obtain hl | hl := List.mem_append.mp hl
        · exact h l hl
        · obtain rfl := List.mem_singleton.mp hl
          exact hw

theorem splitOn_wrap {words : List (List Char)} (hwords : ∀ w ∈ words, IsWord w) (hne : words ≠ []) :
    (['\n'].intercalate (wrap words)).splitOn '\n' = wrap words := by
  refine List.splitOn_intercalate '\n' (not_mem_foldl_wrapWord hwords (by nofun)) ?_
  obtain hnil | ⟨front, w, rfl⟩ := List.eq_nil_or_concat' words
  · exact absurd hnil hne
  · rw [wrap, List.foldl_append]
    exact wrapWord_ne_nil _ w

/-! ## On two lines -/

/-- The text of some words after a place in a line, with a space before each. -/
def spread (words : List (List Char)) : ℕ := (words.map (fun w => 1 + byteLen w)).sum

/-- Words that go on one line: a single one does in any case. -/
def OneLine (words : List (List Char)) : Prop := words.length ≤ 1 ∨ spread words ≤ lineChars + 1

/-- Words that can be put on two lines. -/
def TwoLines (words : List (List Char)) : Prop := ∃ k, OneLine (words.take k) ∧ OneLine (words.drop k)

/-- How many lines are begun after one that is `len` long. -/
def linesBegun : ℕ → List (List Char) → ℕ
  | _, [] => 0
  | len, w :: words =>
    if len + 1 + byteLen w ≤ lineChars then linesBegun (len + 1 + byteLen w) words
    else linesBegun (byteLen w) words + 1

theorem length_foldl_wrapWord (words lines : List (List Char)) (l : List Char) :
    (words.foldl wrapWord (lines ++ [l])).length = lines.length + 1 + linesBegun (byteLen l) words := by
  induction words generalizing lines l with
  | nil => simp [linesBegun]
  | cons w words ih =>
    rw [List.foldl_cons, wrapWord_concat, linesBegun]
    split
    · have hlen : byteLen (l ++ ' ' :: w) = byteLen l + 1 + byteLen w := by
        rw [Rust.byteLen_append, ← List.singleton_append, Rust.byteLen_append, ← Nat.add_assoc]
        rfl
      rw [ih, hlen]
    · rw [ih, List.length_append]
      simp only [List.length_singleton]
      omega

theorem length_wrap_cons (w : List Char) (words : List (List Char)) :
    (wrap (w :: words)).length = 1 + linesBegun (byteLen w) words := by
  have h := length_foldl_wrapWord words [] w
  rw [List.nil_append, List.length_nil, Nat.zero_add] at h
  exact h

theorem linesBegun_eq_zero_iff (len : ℕ) (words : List (List Char)) :
    linesBegun len words = 0 ↔ words = [] ∨ len + spread words ≤ lineChars := by
  induction words generalizing len with
  | nil => simp [linesBegun]
  | cons w words ih =>
    rw [linesBegun]
    simp only [spread, List.map_cons, List.sum_cons, reduceCtorEq, false_or] at ih ⊢
    split
    · rw [ih]
      constructor
      · rintro (rfl | h)
        · simp only [List.map_nil, List.sum_nil]
          omega
        · omega
      · intro h
        right
        omega
    · simp only [Nat.add_eq_zero_iff, Nat.one_ne_zero, and_false, false_iff]
      omega

/-- Filling each line as far as it goes is best. -/
theorem linesBegun_le_one_iff (len : ℕ) (words : List (List Char)) :
    linesBegun len words ≤ 1 ↔
      ∃ k, (k = 0 ∨ len + spread (words.take k) ≤ lineChars) ∧ OneLine (words.drop k) := by
  induction words generalizing len with
  | nil => simp [linesBegun, OneLine]
  | cons w words ih =>
    rw [linesBegun]
    split
    · rename_i hfits
      rw [ih]
      constructor
      · rintro ⟨k, hk, hrest⟩
        refine ⟨k + 1, .inr ?_, hrest⟩
        simp only [spread, List.take_succ_cons, List.map_cons, List.sum_cons] at hk ⊢
        obtain rfl | hk := hk
        · simp only [List.take_zero, List.map_nil, List.sum_nil]
          omega
        · omega
      · rintro ⟨k, hk, hrest⟩
        cases k with
        | zero =>
          -- all on the next line: one word more fits before it as well
          refine ⟨0, .inl rfl, ?_⟩
          simp only [List.drop_zero, OneLine, spread, List.map_cons, List.sum_cons, List.length_cons] at hrest ⊢
          omega
        | succ k =>
          refine ⟨k, ?_, hrest⟩
          simp only [spread, List.take_succ_cons, List.map_cons, List.sum_cons] at hk ⊢
          omega
    · rename_i hfull
      have hzero := linesBegun_eq_zero_iff (byteLen w) words
      constructor
      · intro h
        refine ⟨0, .inl rfl, ?_⟩
        obtain rfl | hfits := hzero.mp (by omega)
        · exact .inl le_rfl
        · right
          simp only [spread, List.drop_zero, List.map_cons, List.sum_cons] at hfits ⊢
          omega
      · rintro ⟨k, hk, hrest⟩
        have hk : k = 0 := by
          obtain rfl | hk := hk
          · rfl
          · cases k with
            | zero => rfl
            | succ k =>
              simp only [spread, List.take_succ_cons, List.map_cons, List.sum_cons] at hk
              omega
        subst hk
        have hbegun : linesBegun (byteLen w) words = 0 := by
          rw [hzero]
          simp only [List.drop_zero, OneLine, List.length_cons] at hrest
          obtain hrest | hrest := hrest
          · exact .inl (List.length_eq_zero_iff.mp (by omega))
          · right
            simp only [spread, List.map_cons, List.sum_cons] at hrest ⊢
            omega
        omega

theorem length_wrap_le_two_iff (words : List (List Char)) : (wrap words).length ≤ 2 ↔ TwoLines words := by
  cases words with
  | nil => simp [wrap, TwoLines, OneLine]
  | cons w words =>
    rw [length_wrap_cons]
    have hiff := linesBegun_le_one_iff (byteLen w) words
    constructor
    · intro h
      obtain ⟨k, hk, hrest⟩ := hiff.mp (by omega)
      refine ⟨k + 1, ?_, hrest⟩
      rw [List.take_succ_cons]
      obtain rfl | hk := hk
      · exact .inl (by simp)
      · right
        simp only [spread, List.map_cons, List.sum_cons] at hk ⊢
        omega
    · rintro ⟨k, hfront, hrest⟩
      have h : linesBegun (byteLen w) words ≤ 1 := by
        rw [hiff]
        cases k with
        | zero =>
          refine ⟨0, .inl rfl, ?_⟩
          simp only [List.drop_zero, OneLine, spread, List.map_cons, List.sum_cons, List.length_cons] at hrest ⊢
          omega
        | succ k =>
          rw [List.take_succ_cons] at hfront
          obtain hone | hfits := hfront
          · rw [List.length_cons] at hone
            have hempty : words.take k = [] := List.length_eq_zero_iff.mp (by omega)
            obtain hk | hwords := List.take_eq_nil_iff.mp hempty
            · exact ⟨k, .inl hk, hrest⟩
            · exact ⟨0, .inl rfl, by rw [hwords]; exact .inl (Nat.zero_le 1)⟩
          · refine ⟨k, .inr ?_, hrest⟩
            simp only [spread, List.map_cons, List.sum_cons] at hfits ⊢
            omega
      omega

/-! ## Time -/

/-- Captions one after another, from one time to another. -/
def Tiles : ℚ → ℚ → List Cue → Prop
  | start, stop, [] => start = stop
  | start, stop, cue :: cues => cue.start = start ∧ cue.start ≤ cue.stop ∧ Tiles cue.stop stop cues

theorem tiles_cuesFrom {duration total : ℚ} (hduration : 0 ≤ duration) (htotal : 0 ≤ total) (start : ℚ)
    (chunks : List (List (List Char))) :
    Tiles start (start + duration * chunks.flatten.length / total) (cuesFrom duration total start chunks) := by
  induction chunks generalizing start with
  | nil => simp [cuesFrom, Tiles]
  | cons chunk chunks ih =>
    have hspan : 0 ≤ duration * chunk.length / total := by positivity
    refine ⟨rfl, le_add_of_nonneg_right hspan, ?_⟩
    have hsum : start + duration * (chunk :: chunks).flatten.length / total =
        start + duration * chunk.length / total + duration * chunks.flatten.length / total := by
      rw [List.flatten_cons, List.length_append, Nat.cast_add]
      ring
    rw [hsum]
    exact ih (start + duration * chunk.length / total)

/-- Each caption has the words and the time of its part. -/
theorem mem_cuesFrom {duration total start : ℚ} {chunks : List (List (List Char))} {cue : Cue}
    (h : cue ∈ cuesFrom duration total start chunks) :
    ∃ chunk ∈ chunks, cue.text = ['\n'].intercalate (wrap chunk) ∧
      cue.stop - cue.start = duration * chunk.length / total := by
  induction chunks generalizing start with
  | nil => cases h
  | cons chunk chunks ih =>
    obtain rfl | h := List.mem_cons.mp h
    · exact ⟨chunk, List.mem_cons_self, rfl, by simp⟩
    · obtain ⟨other, hother, htext⟩ := ih h
      exact ⟨other, List.mem_cons_of_mem chunk hother, htext⟩

theorem exists_cue {duration total start : ℚ} {chunks : List (List (List Char))} {chunk : List (List Char)}
    (h : chunk ∈ chunks) : ∃ cue ∈ cuesFrom duration total start chunks,
      cue.text = ['\n'].intercalate (wrap chunk) ∧ cue.stop - cue.start = duration * chunk.length / total := by
  induction chunks generalizing start with
  | nil => cases h
  | cons first chunks ih =>
    obtain rfl | h := List.mem_cons.mp h
    · exact ⟨_, List.mem_cons_self, rfl, by simp⟩
    · obtain ⟨cue, hcue, htext⟩ := ih h
      exact ⟨cue, List.mem_cons_of_mem _ hcue, htext⟩

/-- The captions' words are those of the parts. -/
theorem words_cuesFrom {duration total start : ℚ} {chunks : List (List (List Char))}
    (h : ∀ chunk ∈ chunks, ∀ w ∈ chunk, IsWord w) :
    (cuesFrom duration total start chunks).flatMap (fun cue => splitWhitespace cue.text) = chunks.flatten := by
  induction chunks generalizing start with
  | nil => rfl
  | cons chunk chunks ih =>
    rw [cuesFrom, List.flatMap_cons, List.flatten_cons,
      ih (fun other hother => h other (List.mem_cons_of_mem chunk hother)),
      splitWhitespace_wrap (h chunk List.mem_cons_self)]

/-! ## Readable captions -/

/-- What captions of a line are to be. A line without words has none. -/
structure Readable (line : Line) (cues : List Cue) : Prop where
  words : cues.flatMap (fun cue => splitWhitespace cue.text) = splitWhitespace line.text
  tiles : splitWhitespace line.text ≠ [] → Tiles line.start line.stop cues
  lines : ∀ cue ∈ cues, (cue.text.splitOn '\n').length ≤ maxLines
  seconds : ∀ cue ∈ cues, 1 < (splitWhitespace cue.text).length → cue.stop - cue.start ≤ maxCueSecs

/-- The words of a caption, for `n` words that wrap to some lines over some seconds. -/
def share (n lines : ℕ) (seconds : ℚ) : ℕ :=
  divCeil n (min (max (max (divCeil lines maxLines) ⌈seconds / maxCueSecs⌉₊) 1) n)

/-- The words of each share go on two lines, and their time is short enough, unless they are alone. -/
def EvenlySpoken (line : Line) : Prop :=
  let words := splitWhitespace line.text
  let each := share words.length (wrap words).length (line.stop - line.start)
  (∀ i, TwoLines (page each words i)) ∧
    (each ≤ 1 ∨ (line.stop - line.start) * each ≤ maxCueSecs * words.length)

theorem share_pos {n : ℕ} (hn : 0 < n) (lines : ℕ) (seconds : ℚ) :
    0 < share n lines seconds ∧ share n lines seconds ≤ n := by
  unfold share
  generalize hp : min (max (max (divCeil lines maxLines) ⌈seconds / maxCueSecs⌉₊) 1) n = pieces
  have hpos : 0 < pieces := by omega
  have hle : pieces ≤ n := by omega
  unfold divCeil
  constructor
  · exact Nat.div_pos (by omega) hpos
  · rw [Nat.div_le_iff_le_mul hpos]
    have hmul : n ≤ n * pieces := Nat.le_mul_of_pos_right n hpos
    omega

theorem twoLines_nil : TwoLines [] := ⟨0, .inl (Nat.zero_le 1), .inl (Nat.zero_le 1)⟩

section pages
variable {words : List (List Char)} {each : ℕ} {seconds start : ℚ}

theorem page_ne_nil {i : ℕ} (hpos : 0 < each) (hi : i * each < words.length) : page each words i ≠ [] := by
  intro hnil
  have hlen := congrArg List.length hnil
  rw [length_page, List.length_nil] at hlen
  omega

theorem isWord_of_page (hwords : ∀ w ∈ words, IsWord w) (i : ℕ) : ∀ w ∈ page each words i, IsWord w :=
  fun w hw => hwords w (mem_of_mem_page hw)

/-- Captions have two lines at most if their words go on two. -/
theorem lines_iff (hwords : ∀ w ∈ words, IsWord w) (hpos : 0 < each) :
    (∀ cue ∈ cuesFrom seconds words.length start (pages each words),
      (cue.text.splitOn '\n').length ≤ maxLines) ↔ ∀ i, TwoLines (page each words i) := by
  constructor
  · intro h i
    by_cases hi : i * each < words.length
    · obtain ⟨cue, hcue, htext, -⟩ := @exists_cue seconds words.length start _ _
        ((mem_pages_iff hpos).mpr ⟨i, hi, rfl⟩)
      have hlines := h cue hcue
      rw [htext, splitOn_wrap (isWord_of_page hwords i) (page_ne_nil hpos hi)] at hlines
      exact (length_wrap_le_two_iff _).mp hlines
    · have hnil : page each words i = [] := by
        rw [page, List.drop_of_length_le (by omega), List.take_nil]
      rw [hnil]
      exact twoLines_nil
  · intro h cue hcue
    obtain ⟨chunk, hchunk, htext, -⟩ := mem_cuesFrom hcue
    obtain ⟨i, hi, rfl⟩ := (mem_pages_iff hpos).mp hchunk
    rw [htext, splitOn_wrap (isWord_of_page hwords i) (page_ne_nil hpos hi)]
    exact (length_wrap_le_two_iff _).mpr (h i)

/-- The first share is the longest. -/
theorem seconds_iff (hwords : ∀ w ∈ words, IsWord w) (hpos : 0 < each) (hle : each ≤ words.length)
    (hseconds : 0 ≤ seconds) :
    (∀ cue ∈ cuesFrom seconds words.length start (pages each words),
      1 < (splitWhitespace cue.text).length → cue.stop - cue.start ≤ maxCueSecs) ↔
      (each ≤ 1 ∨ seconds * each ≤ maxCueSecs * words.length) := by
  have htotal : (0 : ℚ) < words.length := by exact_mod_cast (by omega : 0 < words.length)
  constructor
  · intro h
    by_cases hone : each ≤ 1
    · exact .inl hone
    · right
      have hfirst : 0 * each < words.length := by omega
      obtain ⟨cue, hcue, htext, htime⟩ := @exists_cue seconds words.length start _ _
        ((mem_pages_iff hpos).mpr ⟨0, hfirst, rfl⟩)
      have hlen : (page each words 0).length = each := by
        rw [length_page]
        omega
      have hcount : 1 < (splitWhitespace cue.text).length := by
        rw [htext, splitWhitespace_wrap (isWord_of_page hwords 0), hlen]
        omega
      have hbound := h cue hcue hcount
      rw [htime, hlen, div_le_iff₀ htotal] at hbound
      exact hbound
  · intro h cue hcue hcount
    obtain ⟨chunk, hchunk, htext, htime⟩ := mem_cuesFrom hcue
    obtain ⟨i, hi, rfl⟩ := (mem_pages_iff hpos).mp hchunk
    rw [htext, splitWhitespace_wrap (isWord_of_page hwords i)] at hcount
    have hlen : (page each words i).length ≤ each := by
      rw [length_page]
      exact Nat.min_le_left _ _
    obtain hone | hbound := h
    · omega
    · rw [htime, div_le_iff₀ htotal]
      have hcast : ((page each words i).length : ℚ) ≤ each := by exact_mod_cast hlen
      exact le_trans (mul_le_mul_of_nonneg_left hcast hseconds) hbound

end pages

/-- The captions of a line are readable exactly if it is evenly spoken. -/
theorem readable_iff (line : Line) (h : line.start ≤ line.stop) : Readable line (cues line) ↔ EvenlySpoken line := by
  have hduration : max (line.stop - line.start) 0 = line.stop - line.start := max_eq_left (by linarith)
  by_cases hwords : splitWhitespace line.text = []
  · have hcues : cues line = [] := by
      unfold cues
      rw [hwords]
      rfl
    rw [hcues]
    refine iff_of_true ⟨by rw [hwords]; rfl, fun hne => absurd hwords hne, by nofun, by nofun⟩ ?_
    unfold EvenlySpoken
    rw [hwords]
    refine ⟨fun i => ?_, .inl ?_⟩
    · have hpage : ∀ k, page k ([] : List (List Char)) i = [] := fun k => by simp [page]
      rw [hpage]
      exact twoLines_nil
    · simp [share, divCeil]
  · have hcues : cues line = cuesFrom (line.stop - line.start) (splitWhitespace line.text).length line.start
        (pages (share (splitWhitespace line.text).length (wrap (splitWhitespace line.text)).length
          (line.stop - line.start)) (splitWhitespace line.text)) := by
      unfold cues
      rw [if_neg hwords, hduration]
      rfl
    unfold EvenlySpoken
    rw [hcues]
    dsimp only
    have hall : ∀ w ∈ splitWhitespace line.text, IsWord w := fun w hw => Rust.isWord_of_mem hw
    obtain ⟨hpos, hle⟩ := share_pos (List.length_pos_iff.mpr hwords) (wrap (splitWhitespace line.text)).length
      (line.stop - line.start)
    generalize share (splitWhitespace line.text).length (wrap (splitWhitespace line.text)).length
      (line.stop - line.start) = each at hpos hle
    constructor
    · intro hreadable
      exact ⟨(lines_iff hall hpos).mp hreadable.lines,
        (seconds_iff hall hpos hle (by linarith)).mp hreadable.seconds⟩
    · rintro ⟨htwo, hshort⟩
      refine ⟨?_, fun _ => ?_, (lines_iff hall hpos).mpr htwo,
        (seconds_iff hall hpos hle (by linarith)).mpr hshort⟩
      · rw [words_cuesFrom, flatten_pages_eq_self hpos]
        intro chunk hchunk
        obtain ⟨i, -, rfl⟩ := (mem_pages_iff hpos).mp hchunk
        exact isWord_of_page hall i
      · have htiles := @tiles_cuesFrom (line.stop - line.start) ((splitWhitespace line.text).length)
          (by linarith) (Nat.cast_nonneg _) line.start (pages each (splitWhitespace line.text))
        have htotal : ((splitWhitespace line.text).length : ℚ) ≠ 0 := by
          have hlen := List.length_pos_iff.mpr hwords
          exact_mod_cast hlen.ne'
        rw [flatten_pages_eq_self hpos, mul_div_cancel_right₀ _ htotal, add_sub_cancel] at htiles
        exact htiles

/-- Three words that make one caption. -/
theorem readable_welcome :
    Readable ⟨1, 5 / 2, "Hello and welcome.".toList⟩ (cues ⟨1, 5 / 2, "Hello and welcome.".toList⟩) := by
  refine (readable_iff ⟨1, 5 / 2, "Hello and welcome.".toList⟩ (by norm_num)).mpr ?_
  have hshare : share (splitWhitespace "Hello and welcome.".toList).length
      (wrap (splitWhitespace "Hello and welcome.".toList)).length (5 / 2 - 1) = 3 := by decide +kernel
  unfold EvenlySpoken
  dsimp only
  rw [hshare]
  constructor
  · intro i
    cases i with
    | zero =>
      refine ⟨3, .inr ?_, .inl ?_⟩
      · decide +kernel
      · decide +kernel
    | succ i =>
      have hlen : (splitWhitespace "Hello and welcome.".toList).length = 3 := by decide +kernel
      have hnil : page 3 (splitWhitespace "Hello and welcome.".toList) (i + 1) = [] := by
        rw [page, List.drop_of_length_le (by omega), List.take_nil]
      rw [hnil]
      exact twoLines_nil
  · right
    have hlen : (splitWhitespace "Hello and welcome.".toList).length = 3 := by decide +kernel
    rw [hlen]
    norm_num [maxCueSecs]

/-- Three words over fourteen seconds, of which two make a caption. -/
theorem cues_unreadable : ¬ ∀ line : Line, line.start ≤ line.stop → Readable line (cues line) := by
  intro h
  have hcue : (⟨0, 28 / 3, "one two".toList⟩ : Cue) ∈ cues ⟨0, 14, "one two three".toList⟩ := by decide +kernel
  have hseconds := (h ⟨0, 14, "one two three".toList⟩ (by norm_num)).seconds _ hcue (by decide +kernel)
  norm_num [maxCueSecs] at hseconds

end Haruspex.Video
