import Mathlib.Data.List.TakeWhile

/-! Inline markdown of a document's lines (`fs_tools/markdown_inline.rs`). -/
namespace Haruspex.Documents
set_option autoImplicit false

structure InlineRun where
  text : List Char
  bold : Bool
  italic : Bool
  deriving DecidableEq

/-- The text so far as a run, unless there is none. -/
def flush (runs : List InlineRun) (text : List Char) (bold italic : Bool) : List InlineRun :=
  if text = [] then runs else runs ++ [⟨text, bold, italic⟩]

/-- After a `[`: the link's text, and what follows the `)` of its target. -/
def linkAt (rest : List Char) : Option (List Char × List Char) :=
  match rest.dropWhile (· ≠ ']') with
  | ']' :: '(' :: target =>
    if ')' ∈ target then some (rest.takeWhile (· ≠ ']'), (target.dropWhile (· ≠ ')')).tail) else none
  | _ => none

/-- A list is cut at the first place of a character. -/
theorem cut_at {c : Char} {l : List Char} (h : c ∈ l) :
    l = l.takeWhile (· ≠ c) ++ c :: (l.dropWhile (· ≠ c)).tail := by
  obtain ⟨front, rest, rfl, hfront⟩ := List.eq_append_cons_of_mem h
  have hplain : ∀ x ∈ front, decide (x ≠ c) = true := by
    intro x hx
    exact decide_eq_true fun heq => hfront (heq ▸ hx)
  rw [List.takeWhile_append_of_pos hplain, List.dropWhile_append_of_pos hplain,
    List.takeWhile_cons_of_neg (by simp), List.dropWhile_cons_of_neg (by simp), List.append_nil, List.tail_cons]

theorem not_mem_takeWhile (c : Char) (l : List Char) : c ∉ l.takeWhile (· ≠ c) := by
  intro hmem
  simpa using List.mem_takeWhile_imp hmem

/-- What a link is made of. -/
theorem linkAt_eq {rest text after : List Char} (h : linkAt rest = some (text, after)) :
    ∃ target, rest = text ++ ']' :: '(' :: (target ++ ')' :: after) ∧ ']' ∉ text ∧ ')' ∉ target := by
  unfold linkAt at h
  split at h
  · rename_i target hdrop
    split at h
    · rename_i hparen
      cases h
      refine ⟨target.takeWhile (· ≠ ')'), ?_, not_mem_takeWhile _ _, not_mem_takeWhile _ _⟩
      rw [← cut_at hparen, ← hdrop]
      exact List.takeWhile_append_dropWhile.symm
    · cases h
  · cases h

theorem linkAt_length {rest text after : List Char} (h : linkAt rest = some (text, after)) :
    after.length < rest.length := by
  obtain ⟨target, rfl, -⟩ := linkAt_eq h
  simp only [List.length_append, List.length_cons]
  omega

/-- A link that starts with this character. -/
def linkFrom (c : Char) (rest : List Char) : Option (List Char × List Char) := if c = '[' then linkAt rest else none

theorem linkFrom_eq {c : Char} {rest text after : List Char} (h : linkFrom c rest = some (text, after)) :
    c = '[' ∧ linkAt rest = some (text, after) := by
  unfold linkFrom at h
  split at h
  · exact ⟨by assumption, h⟩
  · cases h

def inlineLoop (chars text : List Char) (bold italic : Bool) (runs : List InlineRun) : List InlineRun :=
  match chars with
  | [] => flush runs text bold italic
  | c :: rest =>
    if c = '*' ∧ rest.head? = some '*' then inlineLoop rest.tail [] (!bold) italic (flush runs text bold italic)
    else if c = '*' then inlineLoop rest [] bold (!italic) (flush runs text bold italic)
    else if c = '`' then
      let code := rest.takeWhile (· ≠ '`')
      inlineLoop (rest.dropWhile (· ≠ '`')).tail [] bold italic
        (flush (flush runs text bold italic) code bold italic)
    else
      match _hlink : linkFrom c rest with
      | some (label, after) => inlineLoop after (text ++ label) bold italic runs
      | none => inlineLoop rest (text ++ [c]) bold italic runs
termination_by chars.length
decreasing_by
  · simp only [List.length_cons, List.length_tail]
    omega
  · simp
  · have hlen := List.Sublist.length_le (List.dropWhile_sublist (l := rest) fun x => decide (x ≠ '`'))
    simp only [List.length_cons, List.length_tail]
    omega
  · have hlen := linkAt_length (linkFrom_eq _hlink).2
    simp only [List.length_cons]
    omega
  · simp

/-- The styled runs of a line. -/
def parseInlineMarkdown (line : List Char) : List InlineRun := inlineLoop line [] false false []

/-- The text of a line without its marks. -/
def stripInlineMarkdown (text : List Char) : List Char := (parseInlineMarkdown text).flatMap InlineRun.text

/-! ## What is left out -/

/-- A part of a line: a mark, or text. -/
inductive Token where
  | bold
  | italic
  | code (text : List Char) (closed : Bool)
  | link (text target : List Char)
  | char (c : Char)

/-- A part as it is written. -/
def Token.source : Token → List Char
  | bold => ['*', '*']
  | italic => ['*']
  | code text closed => '`' :: text ++ if closed then ['`'] else []
  | link text target => '[' :: text ++ ']' :: '(' :: target ++ [')']
  | char c => [c]

/-- A part as it is shown. -/
def Token.shown : Token → List Char
  | bold => []
  | italic => []
  | code text _ => text
  | link text _ => text
  | char c => [c]

/-- A part is as short as it can be, and no mark is taken for text. -/
def Token.Proper : Token → Prop
  | bold => True
  | italic => True
  | code text _ => '`' ∉ text
  | link text target => ']' ∉ text ∧ ')' ∉ target
  | char c => c ≠ '*' ∧ c ≠ '`'

/-- The parts of a line. -/
structure Tokens (line : List Char) (tokens : List Token) : Prop where
  source : line = tokens.flatMap Token.source
  proper : ∀ t ∈ tokens, t.Proper
  /-- Code that is not closed is the last part. -/
  closed : ∀ t ∈ tokens.dropLast, ∀ text, t ≠ .code text false

theorem Tokens.cons {line : List Char} {tokens : List Token} (h : Tokens line tokens) {t : Token} (ht : t.Proper)
    (hclosed : ∀ text, t ≠ .code text false) : Tokens (t.source ++ line) (t :: tokens) where
  source := by rw [List.flatMap_cons, ← h.source]
  proper := by
    intro u hu
    obtain rfl | hu := List.mem_cons.mp hu
    · exact ht
    · exact h.proper u hu
  closed := by
    intro u hu
    cases tokens with
    | nil => cases hu
    | cons v tokens =>
      rw [List.dropLast_cons_cons] at hu
      obtain rfl | hu := List.mem_cons.mp hu
      · exact hclosed
      · exact h.closed u hu

theorem flush_text (runs : List InlineRun) (text : List Char) (bold italic : Bool) :
    (flush runs text bold italic).flatMap InlineRun.text = runs.flatMap InlineRun.text ++ text := by
  unfold flush
  split
  · rename_i h
    rw [h, List.append_nil]
  · simp

/-- Text is what stands between the marks. -/
theorem inlineLoop_tokens (chars text : List Char) (bold italic : Bool) (runs : List InlineRun) :
    ∃ tokens, Tokens chars tokens ∧ (inlineLoop chars text bold italic runs).flatMap InlineRun.text =
      runs.flatMap InlineRun.text ++ text ++ tokens.flatMap Token.shown := by
  induction chars, text, bold, italic, runs using inlineLoop.induct with
  | case1 text bold italic runs =>
    refine ⟨[], ⟨rfl, by simp, by simp⟩, ?_⟩
    rw [inlineLoop, flush_text, List.flatMap_nil, List.append_nil]
  | case2 text bold italic runs c rest h ih =>
    obtain ⟨rfl, hhead⟩ := h
    obtain ⟨tokens, htokens, hruns⟩ := ih
    obtain ⟨rest, rfl⟩ : ∃ tail, rest = '*' :: tail := by
      cases rest with
      | nil => cases hhead
      | cons d tail =>
        rw [List.head?_cons, Option.some_inj] at hhead
        exact ⟨tail, by rw [hhead]⟩
    refine ⟨.bold :: tokens, @Tokens.cons _ _ htokens .bold trivial (by simp), ?_⟩
    rw [inlineLoop, if_pos ⟨rfl, rfl⟩, hruns, flush_text]
    simp [Token.shown]
  | case3 text bold italic runs rest h ih =>
    obtain ⟨tokens, htokens, hruns⟩ := ih
    refine ⟨.italic :: tokens, @Tokens.cons _ _ htokens .italic trivial (by simp), ?_⟩
    rw [inlineLoop, if_neg h, if_pos rfl, hruns, flush_text]
    simp [Token.shown]
  | case4 text bold italic runs rest code h h' ih =>
    rw [inlineLoop, if_neg h, if_neg h', if_pos rfl]
    dsimp only
    by_cases hclose : '`' ∈ rest
    · obtain ⟨tokens, htokens, hruns⟩ := ih
      refine ⟨.code code true :: tokens, ?_, ?_⟩
      · have hcons := @Tokens.cons _ _ htokens (.code code true) (not_mem_takeWhile _ _) (by simp)
        have hsource : (Token.code code true).source ++ (rest.dropWhile (· ≠ '`')).tail = '`' :: rest := by
          have hcut := cut_at hclose
          simp only [Token.source, if_true, List.cons_append, List.append_assoc, List.nil_append]
          rw [← hcut]
        rwa [hsource] at hcons
      · rw [hruns, flush_text, flush_text]
        simp [Token.shown, code]
    · have hcode : rest.takeWhile (· ≠ '`') = rest := by
        rw [List.takeWhile_eq_self_iff]
        intro x hx
        exact decide_eq_true fun heq => hclose (heq ▸ hx)
      have hnone : rest.dropWhile (· ≠ '`') = [] := by
        rw [List.dropWhile_eq_nil_iff]
        intro x hx
        exact decide_eq_true fun heq => hclose (heq ▸ hx)
      refine ⟨[.code rest false], ⟨by simp [Token.source], ?_, by simp⟩, ?_⟩
      · intro t ht
        rw [List.mem_singleton.mp ht]
        exact hclose
      · rw [hnone, hcode, List.tail_nil, inlineLoop, flush_text, flush_text, flush_text]
        simp [Token.shown]
  | case5 text bold italic runs c rest h h' h'' label after hlink ih =>
    obtain ⟨tokens, htokens, hruns⟩ := ih
    obtain ⟨hc, hat⟩ := linkFrom_eq hlink
    obtain ⟨target, hrest, hlabel, htarget⟩ := linkAt_eq hat
    refine ⟨.link label target :: tokens, ?_, ?_⟩
    · have hcons := @Tokens.cons _ _ htokens (.link label target) ⟨hlabel, htarget⟩ (by simp)
      rw [hc, hrest]
      simpa [Token.source] using hcons
    · rw [inlineLoop, if_neg h, if_neg h', if_neg h'']
      split
      · rename_i label' after' hlink'
        rw [hlink] at hlink'
        cases hlink'
        rw [hruns]
        simp [Token.shown]
      · rename_i hnone
        rw [hlink] at hnone
        cases hnone
  | case6 text bold italic runs c rest h h' h'' hlink ih =>
    obtain ⟨tokens, htokens, hruns⟩ := ih
    refine ⟨.char c :: tokens, @Tokens.cons _ _ htokens (.char c) ⟨h', h''⟩ (by simp), ?_⟩
    rw [inlineLoop, if_neg h, if_neg h', if_neg h'']
    split
    · rename_i label' after' hlink'
      rw [hlink] at hlink'
      cases hlink'
    · rw [hruns]
      simp [Token.shown]

/-- A line's runs are its text: the marks are left out, and nothing else. -/
theorem parseInlineMarkdown_tokens (line : List Char) :
    ∃ tokens, Tokens line tokens ∧ stripInlineMarkdown line = tokens.flatMap Token.shown := by
  obtain ⟨tokens, htokens, hruns⟩ := inlineLoop_tokens line [] false false []
  refine ⟨tokens, htokens, ?_⟩
  rw [stripInlineMarkdown, parseInlineMarkdown, hruns]
  rfl

end Haruspex.Documents
