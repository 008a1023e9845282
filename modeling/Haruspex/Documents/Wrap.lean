import Haruspex.Documents.Inline
import Haruspex.Rust.Text
import Mathlib.Data.List.Forall2

/-! Wrapping styled words, and tables as lines of one width (`fs_tools/markdown_inline.rs`). -/
namespace Haruspex.Documents
open Rust (splitWhitespace isWhitespace IsWord glued wordEnds)
set_option autoImplicit false

structure StyledWord where
  word : List Char
  bold : Bool
  italic : Bool
  deriving DecidableEq

def runsToWords (runs : List InlineRun) : List StyledWord :=
  runs.flatMap fun run => (splitWhitespace run.text).map fun word => ⟨word, run.bold, run.italic⟩

/-! ## Wrapping -/

/-- The lines so far, and the one being filled. -/
structure Wrapped where
  lines : List (List StyledWord)
  current : List StyledWord
  currentLen : ℕ

/-- Full lines of an over-long word, and what is left of it. -/
def hardWrap (maxChars : ℕ) (w : StyledWord) (remaining : List Char) (lines : List (List StyledWord)) :
    List (List StyledWord) × List Char :=
  if 0 < maxChars ∧ maxChars < remaining.length then
    hardWrap maxChars w (remaining.drop maxChars) (lines ++ [[{ w with word := remaining.take maxChars }]])
  else (lines, remaining)
termination_by remaining.length
decreasing_by
  simp only [List.length_drop]
  omega

def wrapWord (maxChars : ℕ) (s : Wrapped) (w : StyledWord) : Wrapped :=
  if w.word.length > maxChars then
    let s := if s.current ≠ [] then ⟨s.lines ++ [s.current], [], 0⟩ else s
    let (lines, remaining) := hardWrap maxChars w w.word s.lines
    if remaining ≠ [] then ⟨lines, s.current ++ [{ w with word := remaining }], remaining.length⟩
    else ⟨lines, s.current, s.currentLen⟩
  else
    let candidate := if s.currentLen = 0 then w.word.length else s.currentLen + 1 + w.word.length
    if candidate > maxChars then ⟨s.lines ++ [s.current], [w], w.word.length⟩
    else ⟨s.lines, s.current ++ [w], candidate⟩

def wrapStyledWords (words : List StyledWord) (maxChars : ℕ) : List (List StyledWord) :=
  if maxChars = 0 then [words]
  else
    let s := words.foldl (wrapWord maxChars) ⟨[], [], 0⟩
    let lines := if s.current ≠ [] then s.lines ++ [s.current] else s.lines
    if lines = [] then [[]] else lines

/-- A line's words with single spaces between them. -/
def lineText (line : List StyledWord) : List Char := [' '].intercalate (line.map StyledWord.word)

/-- A word cut into pieces of so many characters, the last one shorter. -/
def pieces (maxChars : ℕ) (word : List Char) : List (List Char) :=
  if 0 < maxChars ∧ maxChars < word.length then word.take maxChars :: pieces maxChars (word.drop maxChars)
  else [word]
termination_by word.length
decreasing_by
  simp only [List.length_drop]
  omega

/-! ## Pieces -/

theorem pieces_of_le {maxChars : ℕ} {word : List Char} (h : word.length ≤ maxChars) : pieces maxChars word = [word] := by
  rw [pieces, if_neg (by omega)]

/-- The pieces of a word, joined directly, are the word. -/
theorem pieces_flatten (maxChars : ℕ) (word : List Char) : (pieces maxChars word).flatten = word := by
  induction word using pieces.induct maxChars with
  | case1 word h ih =>
    rw [pieces, if_pos h, List.flatten_cons, ih, List.take_append_drop]
  | case2 word h =>
    rw [pieces, if_neg h, List.flatten_singleton]

theorem isWord_pieces {maxChars : ℕ} {word : List Char} (h : IsWord word) : ∀ p ∈ pieces maxChars word, IsWord p := by
  induction word using pieces.induct maxChars with
  | case1 word hlong ih =>
    rw [pieces, if_pos hlong]
    intro p hp
    obtain rfl | hp := List.mem_cons.mp hp
    · refine ⟨fun hnil => ?_, fun c hc => h.2 c (List.mem_of_mem_take hc)⟩
      have hlen := congrArg List.length hnil
      simp only [List.length_take, List.length_nil] at hlen
      omega
    · refine ih ⟨fun hnil => ?_, fun c hc => h.2 c (List.mem_of_mem_drop hc)⟩ p hp
      have hlen := congrArg List.length hnil
      simp only [List.length_drop, List.length_nil] at hlen
      omega
  | case2 word hshort =>
    rw [pieces, if_neg hshort]
    intro p hp
    rwa [List.mem_singleton.mp hp]

/-- A styled word's pieces keep its style. -/
def cut (maxChars : ℕ) (w : StyledWord) : List StyledWord := (pieces maxChars w.word).map fun p => { w with word := p }

def lineLen (line : List StyledWord) : ℕ := (lineText line).length

theorem lineLen_nil : lineLen [] = 0 := rfl

theorem lineLen_singleton (w : StyledWord) : lineLen [w] = w.word.length := by
  simp [lineLen, lineText]

theorem intercalate_snoc {A : Type} (sep : List A) (ws : List (List A)) (w : List A) (h : ws ≠ []) :
    sep.intercalate (ws ++ [w]) = sep.intercalate ws ++ sep ++ w := by
  induction ws with
  | nil => exact absurd rfl h
  | cons v ws ih =>
    cases ws with
    | nil => simp [List.intercalate, List.intersperse]
    | cons u ws =>
      have hrec := ih (List.cons_ne_nil _ _)
      simp only [List.intercalate, List.cons_append, List.intersperse_cons_cons, List.flatten_cons] at hrec ⊢
      rw [hrec]
      simp

theorem lineLen_snoc {line : List StyledWord} (h : line ≠ []) (w : StyledWord) :
    lineLen (line ++ [w]) = lineLen line + 1 + w.word.length := by
  rw [lineLen, lineText, List.map_append, List.map_singleton,
    intercalate_snoc _ _ _ (by simpa using h)]
  simp [lineLen, lineText, Nat.add_assoc, Nat.add_comm]

theorem lineLen_pos {line : List StyledWord} (h : line ≠ []) (hwords : ∀ w ∈ line, w.word ≠ []) : 0 < lineLen line := by
  obtain ⟨front, w, rfl⟩ := List.eq_nil_or_concat' line |>.resolve_left h
  have hw := List.length_pos_of_ne_nil (hwords w (by simp))
  by_cases hfront : front = []
  · rw [hfront, List.nil_append, lineLen_singleton]
    exact hw
  · rw [lineLen_snoc hfront]
    omega

/-- Half way through the words. -/
structure Wrapping (maxChars : ℕ) (words : List StyledWord) (s : Wrapped) : Prop where
  lines : ∀ line ∈ s.lines, lineLen line ≤ maxChars
  current : lineLen s.current ≤ maxChars
  len : s.currentLen = lineLen s.current
  nonempty : ∀ w ∈ s.current, w.word ≠ []
  kept : s.lines.flatten ++ s.current = words.flatMap (cut maxChars)

theorem hardWrap_spec {maxChars : ℕ} (hmax : 0 < maxChars) (w : StyledWord) (remaining : List Char) (hne : remaining ≠ [])
    (lines : List (List StyledWord)) (h : ∀ line ∈ lines, lineLen line ≤ maxChars) :
    (∀ line ∈ (hardWrap maxChars w remaining lines).1, lineLen line ≤ maxChars) ∧
      (hardWrap maxChars w remaining lines).2 ≠ [] ∧ (hardWrap maxChars w remaining lines).2.length ≤ maxChars ∧
        (hardWrap maxChars w remaining lines).1.flatten ++
          [{ w with word := (hardWrap maxChars w remaining lines).2 }] =
            lines.flatten ++ (pieces maxChars remaining).map fun p => { w with word := p } := by
  induction remaining, lines using hardWrap.induct maxChars w with
  | case1 remaining lines hlong ih =>
    have hrest : remaining.drop maxChars ≠ [] := by
      intro hnil
      have hlen := congrArg List.length hnil
      simp only [List.length_drop, List.length_nil] at hlen
      omega
    rw [hardWrap, if_pos hlong, pieces, if_pos hlong]
    obtain ⟨hlines, hne', hlen, hkept⟩ := ih hrest (by
      intro line hline
      obtain hline | hline := List.mem_append.mp hline
      · exact h line hline
      · rw [List.mem_singleton.mp hline, lineLen_singleton, List.length_take]
        omega)
    refine ⟨hlines, hne', hlen, ?_⟩
    rw [hkept]
    simp
  | case2 remaining lines hshort =>
    rw [hardWrap, if_neg hshort, pieces, if_neg hshort]
    exact ⟨h, hne, by dsimp only; omega, rfl⟩

theorem Wrapping.step {maxChars : ℕ} (hmax : 0 < maxChars) {words : List StyledWord} {s : Wrapped}
    (h : Wrapping maxChars words s) {w : StyledWord} (hw : w.word ≠ []) :
    Wrapping maxChars (words ++ [w]) (wrapWord maxChars s w) := by
  have hkept : ∀ front, front ++ cut maxChars w = (words ++ [w]).flatMap (cut maxChars) ↔
      front = words.flatMap (cut maxChars) := by
    intro front
    rw [List.flatMap_append, List.flatMap_singleton, List.append_cancel_right_eq]
  unfold wrapWord
  split
  · rename_i hlong
    obtain ⟨s', hs'⟩ : ∃ s' : Wrapped, s' = if s.current ≠ [] then ⟨s.lines ++ [s.current], [], 0⟩ else s := ⟨_, rfl⟩
    have hopen : s'.current = [] ∧ (∀ line ∈ s'.lines, lineLen line ≤ maxChars) ∧
        s'.lines.flatten = words.flatMap (cut maxChars) := by
      by_cases hcurrent : s.current = []
      · rw [hs', if_neg (not_not.mpr hcurrent)]
        have hfront := h.kept
        rw [hcurrent, List.append_nil] at hfront
        exact ⟨hcurrent, h.lines, hfront⟩
      · rw [hs', if_pos hcurrent]
        refine ⟨rfl, fun line hline => ?_, ?_⟩
        · obtain hline | hline := List.mem_append.mp hline
          · exact h.lines line hline
          · rw [List.mem_singleton.mp hline]
            exact h.current
        · rw [List.flatten_append, List.flatten_singleton, h.kept]
    obtain ⟨hcurrent, hlines, hfront⟩ := hopen
    obtain ⟨hlines', hne, hlen, hflat⟩ := hardWrap_spec hmax w w.word hw s'.lines hlines
    dsimp only
    rw [← hs', if_pos hne, hcurrent]
    refine ⟨hlines', ?_, ?_, ?_, ?_⟩
    · rw [List.nil_append, lineLen_singleton]
      exact hlen
    · rw [List.nil_append, lineLen_singleton]
    · simpa using hne
    · rw [List.nil_append, hflat]
      exact (hkept _).mpr hfront
  · rename_i hshort
    have hcut : cut maxChars w = [w] := by rw [cut, pieces_of_le (by omega)]; rfl
    rw [hcut] at hkept
    have hpos := List.length_pos_of_ne_nil hw
    dsimp only
    by_cases hcurrent : s.current = []
    · have hlen : s.currentLen = 0 := by rw [h.len, hcurrent, lineLen_nil]
      rw [if_pos hlen, if_neg (by omega), hcurrent]
      refine ⟨h.lines, ?_, ?_, ?_, ?_⟩
      · rw [List.nil_append, lineLen_singleton]
        omega
      · rw [List.nil_append, lineLen_singleton]
      · simpa using hw
      · have hfront := h.kept
        rw [hcurrent, List.append_nil] at hfront
        exact (hkept _).mpr hfront
    · have hlen : s.currentLen ≠ 0 := by
        rw [h.len]
        exact (lineLen_pos hcurrent h.nonempty).ne'
      rw [if_neg hlen]
      split
      · refine ⟨?_, ?_, ?_, ?_, ?_⟩
        · intro line hline
          obtain hline | hline := List.mem_append.mp hline
          · exact h.lines line hline
          · rw [List.mem_singleton.mp hline]
            exact h.current
        · rw [lineLen_singleton]
          omega
        · rw [lineLen_singleton]
        · simpa using hw
        · rw [List.flatten_append, List.flatten_singleton]
          exact (hkept _).mpr h.kept
      · rename_i hfits
        refine ⟨h.lines, ?_, ?_, ?_, ?_⟩
        · rw [lineLen_snoc hcurrent, ← h.len]
          omega
        · rw [lineLen_snoc hcurrent, ← h.len]
        · intro v hv
          obtain hv | hv := List.mem_append.mp hv
          · exact h.nonempty v hv
          · rwa [List.mem_singleton.mp hv]
        · rw [← List.append_assoc]
          exact (hkept _).mpr h.kept

/-- Every line fits, and the words are kept in order, over-long ones in pieces. -/
theorem wrapStyledWords_spec {maxChars : ℕ} (hmax : 0 < maxChars) {words : List StyledWord}
    (h : ∀ w ∈ words, w.word ≠ []) : (∀ line ∈ wrapStyledWords words maxChars, (lineText line).length ≤ maxChars) ∧
      (wrapStyledWords words maxChars).flatten = words.flatMap (cut maxChars) := by
  have hwrapping : Wrapping maxChars words (words.foldl (wrapWord maxChars) ⟨[], [], 0⟩) := by
    induction words using List.reverseRecOn with
    | nil => constructor <;> simp [lineLen_nil]
    | append_singleton words w ih =>
      rw [List.foldl_concat]
      exact (ih fun v hv => h v (by simp [hv])).step hmax (h w (by simp))
  unfold wrapStyledWords
  rw [if_neg hmax.ne']
  revert hwrapping
  generalize words.foldl (wrapWord maxChars) ⟨[], [], 0⟩ = s
  intro hs
  have hall : (∀ line ∈ (if s.current ≠ [] then s.lines ++ [s.current] else s.lines), lineLen line ≤ maxChars) ∧
      (if s.current ≠ [] then s.lines ++ [s.current] else s.lines).flatten = words.flatMap (cut maxChars) := by
    rw [← hs.kept]
    split
    · refine ⟨fun line hline => ?_, by simp⟩
      obtain hline | hline := List.mem_append.mp hline
      · exact hs.lines line hline
      · rw [List.mem_singleton.mp hline]
        exact hs.current
    · rename_i hcurrent
      rw [not_not.mp hcurrent, List.append_nil]
      exact ⟨hs.lines, rfl⟩
  dsimp only
  revert hall
  generalize (if s.current ≠ [] then s.lines ++ [s.current] else s.lines) = lines
  intro hall
  split
  · rename_i hnil
    rw [hnil] at hall
    refine ⟨fun line hline => ?_, hall.2⟩
    rw [List.mem_singleton.mp hline]
    exact Nat.zero_le _
  · exact hall

/-! ## A line -/

theorem flush_ne_nil {runs : List InlineRun} {text : List Char} {bold italic : Bool} (h : ∀ r ∈ runs, r.text ≠ []) :
    ∀ r ∈ flush runs text bold italic, r.text ≠ [] := by
  unfold flush
  split
  · exact h
  · rename_i htext
    intro r hr
    obtain hr | hr := List.mem_append.mp hr
    · exact h r hr
    · rw [List.mem_singleton.mp hr]
      exact htext

theorem inlineLoop_ne_nil {chars text : List Char} {bold italic : Bool} {runs : List InlineRun}
    (h : ∀ r ∈ runs, r.text ≠ []) : ∀ r ∈ inlineLoop chars text bold italic runs, r.text ≠ [] := by
  induction chars, text, bold, italic, runs using inlineLoop.induct with
  | case1 text bold italic runs =>
    rw [inlineLoop]
    exact flush_ne_nil h
  | case2 text bold italic runs c rest hmark ih =>
    rw [inlineLoop, if_pos hmark]
    exact ih (flush_ne_nil h)
  | case3 text bold italic runs rest hmark ih =>
    rw [inlineLoop, if_neg hmark, if_pos rfl]
    exact ih (flush_ne_nil h)
  | case4 text bold italic runs rest code hmark hmark' ih =>
    rw [inlineLoop, if_neg hmark, if_neg hmark', if_pos rfl]
    exact ih (flush_ne_nil (flush_ne_nil h))
  | case5 text bold italic runs c rest hmark hmark' htick label after hlink ih =>
    rw [inlineLoop, if_neg hmark, if_neg hmark', if_neg htick]
    split
    · rename_i label' after' hlink'
      rw [hlink] at hlink'
      cases hlink'
      exact ih h
    · rename_i hnone
      rw [hlink] at hnone
      cases hnone
  | case6 text bold italic runs c rest hmark hmark' htick hlink ih =>
    rw [inlineLoop, if_neg hmark, if_neg hmark', if_neg htick]
    split
    · rename_i label' after' hlink'
      rw [hlink] at hlink'
      cases hlink'
    · exact ih h

theorem parseInlineMarkdown_ne_nil (line : List Char) : ∀ r ∈ parseInlineMarkdown line, r.text ≠ [] :=
  inlineLoop_ne_nil (by simp)

/-- No run ends where the next one begins, inside a word. -/
def Separate (runs : List InlineRun) : Prop := runs.IsChain fun a b => glued a.text b.text = false

instance (runs : List InlineRun) : Decidable (Separate runs) := inferInstanceAs (Decidable (List.IsChain _ _))

/-- Where the text of the runs that follow begins. -/
theorem glued_runs (a : List Char) {b : InlineRun} (rest : List InlineRun) (hb : b.text ≠ []) :
    glued a ((b :: rest).flatMap InlineRun.text) = glued a b.text := by
  obtain ⟨c, text, htext⟩ := List.exists_cons_of_ne_nil hb
  simp [glued, htext]

theorem split_runs {runs : List InlineRun} (hne : ∀ r ∈ runs, r.text ≠ []) (h : Separate runs) :
    splitWhitespace (runs.flatMap InlineRun.text) = runs.flatMap fun r => splitWhitespace r.text := by
  induction runs with
  | nil => exact Rust.splitWhitespace_nil
  | cons r runs ih =>
    have hrest := fun b hb => hne b (List.mem_cons_of_mem r hb)
    cases runs with
    | nil => simp
    | cons b rest =>
      obtain ⟨hglued, hchain⟩ := List.isChain_cons_cons.mp h
      have happend : glued r.text ((b :: rest).flatMap InlineRun.text) = false := by
        rw [glued_runs _ _ (hrest b List.mem_cons_self)]
        exact hglued
      rw [List.flatMap_cons, Rust.splitWhitespace_append happend, ih hrest hchain]
      rfl

/-- Runs that meet inside a word have a word more than their text. -/
theorem wordEnds_runs {runs : List InlineRun} (hne : ∀ r ∈ runs, r.text ≠ []) :
    wordEnds (runs.flatMap InlineRun.text) ≤ (runs.map fun r => wordEnds r.text).sum ∧
      (wordEnds (runs.flatMap InlineRun.text) = (runs.map fun r => wordEnds r.text).sum → Separate runs) := by
  induction runs with
  | nil => exact ⟨le_rfl, fun _ => .nil⟩
  | cons r runs ih =>
    have hrest := fun b hb => hne b (List.mem_cons_of_mem r hb)
    obtain ⟨hle, heq⟩ := ih hrest
    have happend := Rust.wordEnds_append r.text (runs.flatMap InlineRun.text)
    rw [List.flatMap_cons, List.map_cons, List.sum_cons]
    refine ⟨by omega, fun hsum => ?_⟩
    cases runs with
    | nil => exact .singleton r
    | cons b rest =>
      rw [glued_runs _ _ (hrest b List.mem_cons_self)] at happend
      refine List.isChain_cons_cons.mpr ⟨?_, heq (by omega)⟩
      by_contra hglued
      rw [Bool.not_eq_false] at hglued
      rw [if_pos hglued] at happend
      omega

/-- The lines of a wrapped line fit, and have the words of its text, over-long ones in pieces. -/
structure WrapsWell (line : List Char) (maxChars : ℕ) : Prop where
  width : ∀ l ∈ wrapStyledWords (runsToWords (parseInlineMarkdown line)) maxChars, (lineText l).length ≤ maxChars
  text : (wrapStyledWords (runsToWords (parseInlineMarkdown line)) maxChars).flatten.map StyledWord.word =
    (splitWhitespace (stripInlineMarkdown line)).flatMap (pieces maxChars)

theorem runsToWords_word (runs : List InlineRun) :
    (runsToWords runs).map StyledWord.word = runs.flatMap fun r => splitWhitespace r.text := by
  rw [runsToWords, List.map_flatMap]
  simp [Function.comp_def]

theorem runsToWords_ne_nil {runs : List InlineRun} {w : StyledWord} (h : w ∈ runsToWords runs) : w.word ≠ [] := by
  obtain ⟨r, -, hw⟩ := List.mem_flatMap.mp h
  obtain ⟨word, hword, rfl⟩ := List.mem_map.mp hw
  exact (Rust.isWord_of_mem hword).1

theorem cut_word (maxChars : ℕ) (words : List StyledWord) :
    (words.flatMap (cut maxChars)).map StyledWord.word = (words.map StyledWord.word).flatMap (pieces maxChars) := by
  rw [List.map_flatMap, List.flatMap_map]
  simp [cut, Function.comp_def]

theorem pieces_all {maxChars : ℕ} {words : List (List Char)} (h : ∀ w ∈ words, w.length ≤ maxChars) :
    words.flatMap (pieces maxChars) = words := by
  induction words with
  | nil => rfl
  | cons w words ih =>
    rw [List.flatMap_cons, pieces_of_le (h w List.mem_cons_self), ih fun v hv => h v (List.mem_cons_of_mem _ hv)]
    rfl

theorem exists_longest (words : List (List Char)) : ∃ n, ∀ w ∈ words, w.length ≤ n := by
  induction words with
  | nil => exact ⟨0, by simp⟩
  | cons w words ih =>
    obtain ⟨n, hn⟩ := ih
    refine ⟨max w.length n, fun v hv => ?_⟩
    obtain rfl | hv := List.mem_cons.mp hv
    · exact le_max_left _ _
    · exact (hn v hv).trans (le_max_right _ _)

/-- A line wraps well when its styles do not change inside a word. -/
theorem wrapsWell_iff (line : List Char) : (∀ maxChars ≥ 1, WrapsWell line maxChars) ↔ Separate (parseInlineMarkdown line) := by
  have hne := parseInlineMarkdown_ne_nil line
  have hspec : ∀ maxChars ≥ 1, (wrapStyledWords (runsToWords (parseInlineMarkdown line)) maxChars).flatten.map
      StyledWord.word = ((parseInlineMarkdown line).flatMap fun r => splitWhitespace r.text).flatMap (pieces maxChars) := by
    intro maxChars hmax
    rw [(wrapStyledWords_spec hmax fun w hw => runsToWords_ne_nil hw).2, cut_word, runsToWords_word]
  constructor
  · intro h
    obtain ⟨n, hn⟩ := exists_longest (((parseInlineMarkdown line).flatMap fun r => splitWhitespace r.text) ++
      splitWhitespace (stripInlineMarkdown line))
    have htext := (h (n + 1) (by omega)).text
    rw [hspec (n + 1) (by omega), pieces_all fun w hw => ?_, pieces_all fun w hw => ?_] at htext
    · refine (wordEnds_runs hne).2 ?_
      have hlen := congrArg List.length htext
      rw [List.length_flatMap, Rust.length_splitWhitespace, stripInlineMarkdown] at hlen
      simpa only [Rust.length_splitWhitespace] using hlen.symm
    · exact (hn w (List.mem_append_right _ hw)).trans (Nat.le_succ n)
    · exact (hn w (List.mem_append_left _ hw)).trans (Nat.le_succ n)
  · intro h maxChars hmax
    refine ⟨(wrapStyledWords_spec hmax fun w hw => runsToWords_ne_nil hw).1, ?_⟩
    rw [hspec maxChars hmax, stripInlineMarkdown, split_runs hne h]

/-! ## Tables -/

structure MonoLine where
  text : List Char
  bold : Bool
  deriving DecidableEq

def wrapToWidth (text : List Char) (maxChars : ℕ) : List (List Char) :=
  if maxChars = 0 then [text]
  else (wrapStyledWords ((splitWhitespace text).map fun w => ⟨w, false, false⟩) maxChars).map lineText

def padRight (s : List Char) (width : ℕ) : List Char :=
  if s.length ≥ width then s.take width else s ++ List.replicate (width - s.length) ' '

def maxLineChars : ℕ := 75

def separator : List Char := [' ', ' ']

/-- A row's cells without their marks, as many as the header has. -/
def normalizedRow (columns : ℕ) (row : List (List Char)) : List (List Char) :=
  (row.map stripInlineMarkdown).take columns ++ List.replicate (columns - row.length) []

/-- The longest cell of each column. -/
def longestCells (header : List (List Char)) (rows : List (List (List Char))) : List ℕ :=
  rows.foldl (fun widths row => List.zipWith (fun w cell => max w cell.length) widths row) (header.map List.length)

def separatorTotal (widths : List ℕ) : ℕ := separator.length * (widths.length - 1)

/-- A column's share of the line. -/
def scaled (widths : List ℕ) (w : ℕ) : ℕ := max (w * (maxLineChars - separatorTotal widths) / widths.sum) 4

/-- Widths scaled down to the line. -/
def fitWidths (widths : List ℕ) : List ℕ :=
  if widths.sum + separatorTotal widths > maxLineChars then
    if widths.sum > 0 ∧ maxLineChars - separatorTotal widths > 0 then widths.map (scaled widths) else widths
  else widths

/-- A row as lines, each cell wrapped to its column. -/
def emitRow (widths : List ℕ) (bold : Bool) (cells : List (List Char)) : List MonoLine :=
  let wrapped := List.zipWith wrapToWidth cells widths
  let rowHeight := ((wrapped.map List.length).max?).getD 1
  (List.range rowHeight).map fun k =>
    ⟨separator.intercalate (List.zipWith (fun lines w => padRight ((lines[k]?).getD []) w) wrapped widths), bold⟩

def tableWidths (header : List (List Char)) (rows : List (List (List Char))) : List ℕ :=
  longestCells (header.map stripInlineMarkdown) (rows.map (normalizedRow header.length))

def formatTableAsMonoblock (header : List (List Char)) (rows : List (List (List Char))) : List MonoLine :=
  if header.length = 0 then []
  else
    let widths := fitWidths (tableWidths header rows)
    emitRow widths true (header.map stripInlineMarkdown) ++
      ⟨separator.intercalate (widths.map fun w => List.replicate w '-'), false⟩ ::
        (rows.map (normalizedRow header.length)).flatMap (emitRow widths false)

/-- The slice of a line in one column. -/
def column (widths : List ℕ) (i : ℕ) (text : List Char) : List Char :=
  (text.drop ((widths.take i).map fun w => w + separator.length).sum).take (widths.getD i 0)

/-- The slices of each column, put together, are the cell's words, over-long ones in pieces. -/
def RowHolds (widths : List ℕ) (cells : List (List Char)) (lines : List MonoLine) : Prop :=
  widths.length = cells.length ∧ ∀ (i : ℕ) (cell : List Char), cells[i]? = some cell →
    (lines.flatMap fun l => splitWhitespace (column widths i l.text)) =
      (splitWhitespace cell).flatMap (pieces (widths.getD i 0))

/-! ## Columns -/

theorem padRight_length (s : List Char) (width : ℕ) : (padRight s width).length = width := by
  unfold padRight
  split
  · rw [List.length_take]
    omega
  · rw [List.length_append, List.length_replicate]
    omega

theorem splitWhitespace_spaces (n : ℕ) : splitWhitespace (List.replicate n ' ') = [] := by
  induction n with
  | zero => exact Rust.splitWhitespace_nil
  | succ n ih =>
    have hblank := Rust.splitWhitespace_blank [] (List.replicate n ' ') (by decide : isWhitespace ' ' = true)
    rw [List.replicate_succ]
    simpa [ih] using hblank

/-- Padding adds no word, and cuts none off a line that fits. -/
theorem splitWhitespace_padRight {s : List Char} {width : ℕ} (h : s.length ≤ width) :
    splitWhitespace (padRight s width) = splitWhitespace s := by
  unfold padRight
  split
  · rw [List.take_of_length_le h]
  · have hglued : glued s (List.replicate (width - s.length) ' ') = false := by
      obtain ⟨n, hn⟩ : ∃ n, width - s.length = n + 1 := ⟨width - s.length - 1, by omega⟩
      rw [hn, List.replicate_succ]
      simp [glued, isWhitespace]
    rw [Rust.splitWhitespace_append hglued, splitWhitespace_spaces, List.append_nil]

theorem length_join (parts : List (List Char)) :
    (separator.intercalate parts).length = (parts.map List.length).sum + separator.length * (parts.length - 1) := by
  induction parts with
  | nil => rfl
  | cons p parts ih =>
    cases parts with
    | nil => simp [List.intercalate, List.intersperse]
    | cons q parts =>
      have hjoin : separator.intercalate (p :: q :: parts) = p ++ separator ++ separator.intercalate (q :: parts) := by
        simp [List.intercalate, List.intersperse]
      rw [hjoin, List.length_append, List.length_append, ih]
      simp only [List.map_cons, List.sum_cons, List.length_cons, separator, List.length_nil]
      omega

theorem column_join (parts : List (List Char)) (i : ℕ) :
    column (parts.map List.length) i (separator.intercalate parts) = parts.getD i [] := by
  induction parts generalizing i with
  | nil => simp [column]
  | cons p parts ih =>
    have hjoin : ∃ rest, separator.intercalate (p :: parts) = p ++ rest ∧
        (parts ≠ [] → rest = separator ++ separator.intercalate parts) := by
      cases parts with
      | nil => exact ⟨[], by simp [List.intercalate, List.intersperse], fun h => absurd rfl h⟩
      | cons q parts => exact ⟨_, by simp [List.intercalate, List.intersperse]; rfl, fun _ => by simp [List.intercalate]⟩
    obtain ⟨rest, hjoin, hrest⟩ := hjoin
    cases i with
    | zero => simp [column, hjoin]
    | succ i =>
      by_cases hparts : parts = []
      · simp [column, hparts]
      · rw [List.getD_cons_succ, ← ih i, hjoin, hrest hparts]
        unfold column
        rw [List.map_cons, List.take_succ_cons, List.map_cons, List.sum_cons, List.getD_cons_succ, ← List.append_assoc,
          ← List.length_append, ← List.drop_drop, List.drop_left]

/-- The lines of a cell fit its column, and have its words. -/
theorem wrapToWidth_spec {cell : List Char} {width : ℕ} (hzero : width = 0 → cell = []) :
    (∀ l ∈ wrapToWidth cell width, l.length ≤ width) ∧
      (wrapToWidth cell width).flatMap splitWhitespace = (splitWhitespace cell).flatMap (pieces width) := by
  unfold wrapToWidth
  split
  · rename_i hw
    rw [hzero hw]
    simp
  · rename_i hw
    obtain ⟨hfits, hwords⟩ := @wrapStyledWords_spec width (by omega)
      ((splitWhitespace cell).map fun w => (⟨w, false, false⟩ : StyledWord)) (by
        intro w hw
        obtain ⟨word, hword, rfl⟩ := List.mem_map.mp hw
        exact (Rust.isWord_of_mem hword).1)
    have hkept := congrArg (List.map StyledWord.word) hwords
    rw [cut_word, List.map_map, Function.comp_def, List.map_id'] at hkept
    refine ⟨fun l hl => ?_, ?_⟩
    · obtain ⟨line, hline, rfl⟩ := List.mem_map.mp hl
      exact hfits line hline
    · rw [← hkept, List.flatMap_map, List.map_flatten, ← List.flatMap_def]
      refine List.flatMap_congr fun line hline => Rust.splitWhitespace_intercalate fun w hw => ?_
      obtain ⟨word, hword, rfl⟩ := List.mem_map.mp hw
      have hmem : word.word ∈ ((wrapStyledWords ((splitWhitespace cell).map fun w => ⟨w, false, false⟩) width).flatten).map
          StyledWord.word := List.mem_map_of_mem (List.mem_flatten.mpr ⟨line, hline, hword⟩)
      rw [hkept] at hmem
      obtain ⟨whole, hwhole, hpiece⟩ := List.mem_flatMap.mp hmem
      exact isWord_pieces (Rust.isWord_of_mem hwhole) _ hpiece

theorem flatMap_range {lines : List (List Char)} {n : ℕ} (h : lines.length ≤ n) :
    ((List.range n).flatMap fun k => splitWhitespace ((lines[k]?).getD [])) = lines.flatMap splitWhitespace := by
  induction lines generalizing n with
  | nil => simp
  | cons l lines ih =>
    obtain ⟨m, rfl⟩ : ∃ m, n = m + 1 := ⟨n - 1, by rw [List.length_cons] at h; omega⟩
    rw [List.range_succ_eq_map, List.flatMap_cons, List.flatMap_map, List.flatMap_cons,
      ← ih (Nat.le_of_succ_le_succ h)]
    rfl

/-- A row's lines have the widths of the columns, and lose nothing of its cells. -/
theorem emitRow_holds {widths : List ℕ} {cells : List (List Char)} (hlen : widths.length = cells.length)
    (hzero : ∀ (i : ℕ) (cell : List Char), cells[i]? = some cell → widths.getD i 0 = 0 → cell = []) (bold : Bool) :
    RowHolds widths cells (emitRow widths bold cells) ∧
      ∀ l ∈ emitRow widths bold cells, l.text.length = widths.sum + separatorTotal widths := by
  have hparts : ∀ k : ℕ, (List.zipWith (fun lines w => padRight ((lines[k]?).getD []) w)
      (List.zipWith wrapToWidth cells widths) widths).map List.length = widths := by
    intro k
    refine List.ext_getElem (by simp [hlen]) fun i hi hi' => ?_
    simp [padRight_length]
  refine ⟨⟨hlen, fun i cell hcell => ?_⟩, fun l hl => ?_⟩
  · have hi : i < cells.length := (List.getElem?_eq_some_iff.mp hcell).1
    have hi' : i < widths.length := by omega
    have hwidth : widths.getD i 0 = widths[i] := by simp [hi']
    obtain ⟨hfits, hwords⟩ := wrapToWidth_spec (hzero i cell hcell)
    have hcolumn : ∀ k : ℕ, splitWhitespace (column widths i (separator.intercalate
        (List.zipWith (fun lines w => padRight ((lines[k]?).getD []) w) (List.zipWith wrapToWidth cells widths) widths))) =
          splitWhitespace (((wrapToWidth cell (widths.getD i 0))[k]?).getD []) := by
      intro k
      have hjoin := column_join (List.zipWith (fun lines w => padRight ((lines[k]?).getD []) w)
        (List.zipWith wrapToWidth cells widths) widths) i
      rw [hparts k] at hjoin
      have hpart : (List.zipWith (fun lines w => padRight ((lines[k]?).getD []) w)
          (List.zipWith wrapToWidth cells widths) widths).getD i [] =
            padRight (((wrapToWidth cell (widths.getD i 0))[k]?).getD []) (widths.getD i 0) := by
        simp [List.getElem?_zipWith, hcell, List.getElem?_eq_getElem hi']
      rw [hjoin, hpart, splitWhitespace_padRight]
      cases hline : (wrapToWidth cell (widths.getD i 0))[k]? with
      | none => exact Nat.zero_le _
      | some l => exact hfits l (List.mem_of_getElem? hline)
    rw [emitRow, List.flatMap_map, ← hwords]
    dsimp only
    simp only [hcolumn]
    refine flatMap_range ?_
    have hmem : (wrapToWidth cell (widths.getD i 0)).length ∈ (List.zipWith wrapToWidth cells widths).map List.length := by
      refine List.mem_map.mpr ⟨_, List.mem_iff_getElem?.mpr ⟨i, ?_⟩, rfl⟩
      simp [List.getElem?_zipWith, hcell, List.getElem?_eq_getElem hi']
    cases hmax : ((List.zipWith wrapToWidth cells widths).map List.length).max? with
    | none =>
      rw [List.max?_eq_none_iff.mp hmax] at hmem
      cases hmem
    | some m => exact (List.max?_eq_some_iff.mp hmax).2 _ hmem
  · obtain ⟨k, -, rfl⟩ := List.mem_map.mp hl
    dsimp only
    rw [length_join, hparts, separatorTotal]
    have hcount := congrArg List.length (hparts k)
    rw [List.length_map] at hcount
    rw [hcount]

/-! ## Widths -/

theorem longest_fold {n : ℕ} {rows : List (List (List Char))} (h : ∀ row ∈ rows, row.length = n) {widths : List ℕ}
    (hwidths : widths.length = n) :
    (rows.foldl (fun widths row => List.zipWith (fun w cell => max w cell.length) widths row) widths).length = n ∧
      (∀ i, widths.getD i 0 ≤
        (rows.foldl (fun widths row => List.zipWith (fun w cell => max w cell.length) widths row) widths).getD i 0) ∧
      ∀ row ∈ rows, ∀ (i : ℕ) (cell : List Char), row[i]? = some cell → cell.length ≤
        (rows.foldl (fun widths row => List.zipWith (fun w cell => max w cell.length) widths row) widths).getD i 0 := by
  induction rows generalizing widths with
  | nil => exact ⟨hwidths, fun i => le_rfl, fun row hrow => absurd hrow List.not_mem_nil⟩
  | cons row rows ih =>
    have hrow := h row List.mem_cons_self
    obtain ⟨hlen, hle, hcells⟩ := ih (fun r hr => h r (List.mem_cons_of_mem _ hr))
      (by simp [hwidths, hrow] : (List.zipWith (fun w cell => max w cell.length) widths row).length = n)
    have hgrow : ∀ i, widths.getD i 0 ≤ (List.zipWith (fun w cell => max w cell.length) widths row).getD i 0 ∧
        ∀ cell, row[i]? = some cell →
          cell.length ≤ (List.zipWith (fun w cell => max w cell.length) widths row).getD i 0 := by
      intro i
      by_cases hi : i < n
      · have hi' : i < widths.length := by omega
        have hi'' : i < row.length := by omega
        simp only [List.getD_eq_getElem?_getD, List.getElem?_zipWith, List.getElem?_eq_getElem hi',
          List.getElem?_eq_getElem hi'', Option.getD_some]
        refine ⟨le_max_left _ _, ?_⟩
        rintro cell ⟨⟩
        exact le_max_right _ _
      · have hnone : widths[i]? = none := List.getElem?_eq_none (by omega)
        have hnone' : row[i]? = none := List.getElem?_eq_none (by omega)
        simp [hnone, hnone']
    refine ⟨hlen, fun i => (hgrow i).1.trans (hle i), fun r hr i cell hcell => ?_⟩
    obtain rfl | hr := List.mem_cons.mp hr
    · exact ((hgrow i).2 cell hcell).trans (hle i)
    · exact hcells r hr i cell hcell

theorem normalizedRow_length (columns : ℕ) (row : List (List Char)) : (normalizedRow columns row).length = columns := by
  simp only [normalizedRow, List.length_append, List.length_take, List.length_map, List.length_replicate]
  omega

theorem fitWidths_length (widths : List ℕ) : (fitWidths widths).length = widths.length := by
  unfold fitWidths
  split
  · split
    · rw [List.length_map]
    · rfl
  · rfl

/-- A column of no width has no text. -/
theorem fitWidths_zero {widths : List ℕ} {i : ℕ} (h : (fitWidths widths).getD i 0 = 0) : widths.getD i 0 = 0 := by
  unfold fitWidths at h
  split at h
  · split at h
    · by_cases hi : i < widths.length
      · have hscaled : 4 ≤ scaled widths widths[i] := le_max_right _ _
        simp only [List.getD_eq_getElem?_getD, List.getElem?_map, List.getElem?_eq_getElem hi, Option.map_some,
          Option.getD_some] at h
        omega
      · simp [List.getElem?_eq_none (not_lt.mp hi)]
    · exact h
  · exact h

/-- The widths of a table's columns, each as wide as its longest cell or scaled down, are those of a line. -/
def Fits (header : List (List Char)) (rows : List (List (List Char))) : Prop :=
  header = [] ∨ (tableWidths header rows).sum + separatorTotal (tableWidths header rows) ≤ maxLineChars ∨
    (separatorTotal (tableWidths header rows) < maxLineChars ∧
      ((tableWidths header rows).map (scaled (tableWidths header rows))).sum +
        separatorTotal (tableWidths header rows) ≤ maxLineChars)

/-- The lines of a table have one length, within the limit, and lose nothing of its cells. -/
structure TableWell (header : List (List Char)) (rows : List (List (List Char))) : Prop where
  width : ∃ n ≤ maxLineChars, ∀ l ∈ formatTableAsMonoblock header rows, l.text.length = n
  columns : header ≠ [] → ∃ widths head rule blocks,
    formatTableAsMonoblock header rows = head ++ rule :: blocks.flatten ∧
      RowHolds widths (header.map stripInlineMarkdown) head ∧
        List.Forall₂ (RowHolds widths) (rows.map (normalizedRow header.length)) blocks

theorem fitWidths_fits {header : List (List Char)} {rows : List (List (List Char))} (hne : header ≠ []) :
    (fitWidths (tableWidths header rows)).sum + separatorTotal (tableWidths header rows) ≤ maxLineChars ↔
      Fits header rows := by
  unfold fitWidths Fits
  simp only [hne, false_or]
  split
  · rename_i hwide
    rw [or_iff_right (by omega)]
    split
    · rename_i hshare
      rw [and_iff_right (by omega)]
    · rename_i hnone
      refine iff_of_false (by omega) fun h => ?_
      have hsum : (tableWidths header rows).sum = 0 := by omega
      omega
  · rename_i hnarrow
    exact iff_of_true (by omega) (.inl (by omega))

/-- A table's lines are as they should be when the scaled columns fit. -/
theorem tableWell_iff (header : List (List Char)) (rows : List (List (List Char))) :
    TableWell header rows ↔ Fits header rows := by
  by_cases hheader : header = []
  · subst hheader
    exact iff_of_true ⟨⟨0, Nat.zero_le _, by simp [formatTableAsMonoblock]⟩, fun h => absurd rfl h⟩ (.inl rfl)
  · have hcolumns : (header.map stripInlineMarkdown).length = header.length := List.length_map _
    obtain ⟨hlen, hhead, hcells⟩ := @longest_fold header.length (rows.map (normalizedRow header.length))
      (by
        intro row hrow
        obtain ⟨r, -, rfl⟩ := List.mem_map.mp hrow
        exact normalizedRow_length _ _)
      ((header.map stripInlineMarkdown).map List.length) (by simp)
    change (tableWidths header rows).length = _ at hlen
    have hfit : (fitWidths (tableWidths header rows)).length = header.length := by rw [fitWidths_length, hlen]
    have hseparator : separatorTotal (fitWidths (tableWidths header rows)) = separatorTotal (tableWidths header rows) := by
      rw [separatorTotal, separatorTotal, fitWidths_length]
    have hrow : ∀ cells : List (List Char), cells.length = header.length →
        (∀ (i : ℕ) (cell : List Char), cells[i]? = some cell → cell.length ≤ (tableWidths header rows).getD i 0) →
        ∀ bold, RowHolds (fitWidths (tableWidths header rows)) cells
          (emitRow (fitWidths (tableWidths header rows)) bold cells) ∧
            ∀ l ∈ emitRow (fitWidths (tableWidths header rows)) bold cells, l.text.length =
              (fitWidths (tableWidths header rows)).sum + separatorTotal (tableWidths header rows) := by
      intro cells hcells hle bold
      rw [← hseparator]
      refine emitRow_holds (hfit.trans hcells.symm) (fun i cell hcell hzero => ?_) bold
      have hwidth := hle i cell hcell
      rw [fitWidths_zero hzero] at hwidth
      exact List.eq_nil_of_length_eq_zero (by omega)
    have hheadRow := hrow (header.map stripInlineMarkdown) hcolumns (fun i cell hcell => by
      refine le_trans ?_ (hhead i)
      rw [List.getD_eq_getElem?_getD, List.getElem?_map, hcell]
      exact le_rfl) true
    have hbody : ∀ row ∈ rows.map (normalizedRow header.length), row.length = header.length ∧
        ∀ (i : ℕ) (cell : List Char), row[i]? = some cell → cell.length ≤ (tableWidths header rows).getD i 0 := by
      intro row hmem
      obtain ⟨r, -, rfl⟩ := List.mem_map.mp hmem
      exact ⟨normalizedRow_length _ _, hcells _ hmem⟩
    have hrule : (separator.intercalate ((fitWidths (tableWidths header rows)).map fun w => List.replicate w '-')).length =
        (fitWidths (tableWidths header rows)).sum + separatorTotal (tableWidths header rows) := by
      rw [length_join, ← hseparator]
      simp [separatorTotal, Function.comp_def]
    have hout : formatTableAsMonoblock header rows =
        emitRow (fitWidths (tableWidths header rows)) true (header.map stripInlineMarkdown) ++
          ⟨separator.intercalate ((fitWidths (tableWidths header rows)).map fun w => List.replicate w '-'), false⟩ ::
            ((rows.map (normalizedRow header.length)).map (emitRow (fitWidths (tableWidths header rows)) false)).flatten := by
      rw [formatTableAsMonoblock, if_neg (by simpa using hheader), ← List.flatMap_def]
    rw [← fitWidths_fits hheader]
    constructor
    · rintro ⟨⟨n, hn, hall⟩, -⟩
      have hmem : (⟨separator.intercalate ((fitWidths (tableWidths header rows)).map fun w => List.replicate w '-'),
          false⟩ : MonoLine) ∈ formatTableAsMonoblock header rows := by
        rw [hout]
        exact List.mem_append_right _ List.mem_cons_self
      rw [← hrule]
      exact (hall _ hmem).le.trans hn
    · intro hfits
      refine ⟨⟨_, hfits, fun l hl => ?_⟩, fun _ => ⟨_, _, _, _, hout, hheadRow.1, ?_⟩⟩
      · rw [hout, List.mem_append, List.mem_cons, List.mem_flatten] at hl
        obtain hl | rfl | ⟨block, hblock, hl⟩ := hl
        · exact hheadRow.2 l hl
        · exact hrule
        · obtain ⟨row, hmem, rfl⟩ := List.mem_map.mp hblock
          exact (hrow row (hbody row hmem).1 (hbody row hmem).2 false).2 l hl
      · rw [List.forall₂_map_right_iff, List.forall₂_same]
        exact fun row hmem => (hrow row (hbody row hmem).1 (hbody row hmem).2 false).1

/-- Wrapping keeps the text and the width of a line whose styles do not change inside a word, and of a table that fits. -/
theorem layout_iff (line : List Char) (header : List (List Char)) (rows : List (List (List Char))) :
    ((∀ maxChars ≥ 1, WrapsWell line maxChars) ↔ Separate (parseInlineMarkdown line)) ∧
      (TableWell header rows ↔ Fits header rows) :=
  ⟨wrapsWell_iff line, tableWell_iff header rows⟩

/-- Half a word in bold. -/
def halfBold : List Char := ['*', '*', 'b', 'o', '*', '*', 'l', 'd']

/-- A table of many columns. -/
def wideHeader : List (List Char) := List.replicate 14 ['c', 'o', 'l', 'u', 'm', 'n']

/-- Half a word in bold becomes two words, and a table of many columns is too wide. -/
theorem layout_fails : (¬ ∀ maxChars ≥ 1, WrapsWell halfBold maxChars) ∧ ¬ TableWell wideHeader [] := by
  constructor
  · rw [wrapsWell_iff]
    have hruns : parseInlineMarkdown halfBold = [⟨['b', 'o'], true, false⟩, ⟨['l', 'd'], false, false⟩] := by
      simp [parseInlineMarkdown, halfBold, inlineLoop, flush, linkFrom]
    rw [hruns]
    decide
  · rw [tableWell_iff]
    have hcell : stripInlineMarkdown ['c', 'o', 'l', 'u', 'm', 'n'] = ['c', 'o', 'l', 'u', 'm', 'n'] := by
      simp [stripInlineMarkdown, parseInlineMarkdown, inlineLoop, flush, linkFrom]
    have hwidths : tableWidths wideHeader [] = List.replicate 14 6 := by
      rw [tableWidths, wideHeader, List.map_replicate, hcell]
      rfl
    rw [Fits, hwidths]
    decide

end Haruspex.Documents
