import Haruspex.JavaScript.Text
import Mathlib.Data.List.TakeWhile

/-! The simple commands of a shell command (`splitCommand` of `code/readOnlyCommand.ts`). A string is its list of
characters. -/
namespace Haruspex.ReadOnlyCommand
open JavaScript
set_option autoImplicit false

/-! ## The scanner -/

inductive Quote where
  | bare
  | single
  | double
deriving DecidableEq

structure Scan where
  parts : List (List (List Char))
  words : List (List Char)
  word : List Char
  inWord : Bool
  quote : Quote

namespace Scan

def start : Scan := ⟨[], [], [], false, .bare⟩

def add (s : Scan) (text : List Char) : Scan := { s with word := s.word ++ text }

def endWord (s : Scan) : Scan :=
  { s with words := if s.inWord then s.words ++ [s.word] else s.words, word := [], inWord := false }

def endPart (s : Scan) : Scan :=
  { s.endWord with
    parts := if s.endWord.words = [] then s.parts else s.parts ++ [s.endWord.words]
    words := [] }

end Scan

def devNull : List Char := ['/', 'd', 'e', 'v', '/', 'n', 'u', 'l', 'l']

/-- `[\d&]?` -/
def descriptor : List Char → List Char
  | [] => []
  | c :: _ => if c.isDigit || c = '&' then [c] else []

/-- `HARMLESS_REDIRECT`: what it matches. -/
def harmlessRedirect (text : List Char) : Option (List Char) :=
  match text.drop (descriptor text).length with
  | '>' :: target =>
    if devNull <+: target.dropWhile isBlank then
      some (descriptor text ++ '>' :: (target.takeWhile isBlank ++ devNull))
    else
      match target with
      | '&' :: d :: _ => if d.isDigit then some (descriptor text ++ ['>', '&', d]) else none
      | _ => none
  | _ => none

def separators : List Char := [';', '|', '&', '(', ')', '\n']

/-- The loop, `skip` characters further on. -/
def scan : ℕ → Scan → List Char → Option Scan
  | _, s, [] => some s
  | skip + 1, s, _ :: rest => scan skip s rest
  | 0, s, c :: rest =>
    if s.quote = .single then
      if c = '\'' then scan 0 { s with quote := .bare } rest else scan 0 (s.add [c]) rest
    else if c = '`' ∨ c = '$' ∧ rest.head? = some '(' then none
    else if s.quote = .double then
      if c = '"' then scan 0 { s with quote := .bare } rest
      else if c = '\\' ∧ rest ≠ [] then scan 1 (s.add rest.head?.toList) rest
      else scan 0 (s.add [c]) rest
    else if c = '\\' then scan 1 { s.add rest.head?.toList with inWord := true } rest
    else if c = '\'' ∨ c = '"' then scan 0 { s with quote := if c = '"' then .double else .single, inWord := true } rest
    else if c = ' ' ∨ c = '\t' then scan 0 s.endWord rest
    else if c = '>' ∨ rest.head? = some '>' ∧ s.inWord = false ∧ (c = '&' ∨ c.isDigit = true) then
      match harmlessRedirect (c :: rest) with
      | none => none
      | some harmless => scan (harmless.length - 1) s.endWord rest
    else if c = '<' ∧ rest.head? = some '(' then none
    else if c ∈ separators then scan 0 s.endPart rest
    else scan 0 { s.add [c] with inWord := true } rest

def splitCommand (command : List Char) : Option (List (List (List Char))) :=
  match scan 0 .start command with
  | none => none
  | some s => if s.quote = .bare then some s.endPart.parts else none

/-! ## How a command is spelt -/

/-- A character between double quotes. -/
inductive Quoted where
  | plain (c : Char)
  | escaped (c : Char)

def Quoted.text : Quoted → List Char
  | .plain c => [c]
  | .escaped c => ['\\', c]

def Quoted.char : Quoted → Char
  | .plain c => c
  | .escaped c => c

/-- A part of a word. A backslash at the very end of the command escapes nothing. -/
inductive Piece where
  | bare (c : Char)
  | escaped (c : Char)
  | single (body : List Char)
  | double (body : List Quoted)
  | dangling

def Piece.text : Piece → List Char
  | .bare c => [c]
  | .escaped c => ['\\', c]
  | .single body => '\'' :: (body ++ ['\''])
  | .double body => '"' :: (body.flatMap Quoted.text ++ ['"'])
  | .dangling => ['\\']

/-- What the shell passes on of it. -/
def Piece.value : Piece → List Char
  | .bare c => [c]
  | .escaped c => [c]
  | .single body => body
  | .double body => body.map Quoted.char
  | .dangling => []

/-- Where a redirection goes: to `/dev/null`, or where another descriptor goes. -/
inductive Target where
  | null (blanks : List Char)
  | copy (digit : Char)

def Target.text : Target → List Char
  | .null blanks => blanks ++ devNull
  | .copy digit => ['&', digit]

inductive Token where
  | word (pieces : List Piece)
  | blank (c : Char)
  | separator (c : Char)
  | redirect (fd : Option Char) (target : Target)

def Token.text : Token → List Char
  | .word pieces => pieces.flatMap Piece.text
  | .blank c => [c]
  | .separator c => [c]
  | .redirect fd target => fd.toList ++ '>' :: target.text

def spelt (ts : List Token) : List Char := ts.flatMap Token.text

/-- The words of each command that has some. -/
def commands : List (List Char) → List Token → List (List (List Char))
  | words, [] => if words = [] then [] else [words]
  | words, .word pieces :: ts => commands (words ++ [pieces.flatMap Piece.value]) ts
  | words, .separator _ :: ts => (if words = [] then [] else [words]) ++ commands [] ts
  | words, _ :: ts => commands words ts

/-- Double quotes hold no command substitution. -/
def WellQuoted : List Quoted → Prop
  | [] => True
  | .plain c :: rest =>
    c ≠ '"' ∧ c ≠ '\\' ∧ c ≠ '`' ∧ ¬ (c = '$' ∧ (rest.flatMap Quoted.text).head? = some '(') ∧ WellQuoted rest
  | .escaped _ :: rest => WellQuoted rest

def special : List Char := ['`', '\\', '\'', '"', ' ', '\t', '>'] ++ separators

/-- A piece at the start of a word or further on, before some text: no substitution, and no digit that is a descriptor. -/
def WellFormed (first : Bool) (after : List Char) : Piece → Prop
  | .bare c =>
    c ∉ special ∧ ¬ (c = '$' ∧ after.head? = some '(') ∧ ¬ (c = '<' ∧ after.head? = some '(') ∧
      ¬ (first = true ∧ c.isDigit = true ∧ after.head? = some '>')
  | .escaped _ => True
  | .single body => '\'' ∉ body
  | .double body => WellQuoted body
  | .dangling => after = []

def WellPieced : Bool → List Char → List Piece → Prop
  | _, _, [] => True
  | first, after, p :: ps => WellFormed first (ps.flatMap Piece.text ++ after) p ∧ WellPieced false after ps

def Target.Harmless : Target → Prop
  | .null blanks => ∀ c ∈ blanks, isBlank c = true
  | .copy digit => digit.isDigit = true

/-- A command is a row of words, blanks, separators and harmless redirections. A word ends where another token begins, and
a descriptor is not part of a word. -/
def WellSpelt : Bool → List Char → List Token → Prop
  | _, _, [] => True
  | inWord, after, .word pieces :: ts =>
    inWord = false ∧ pieces ≠ [] ∧ WellPieced true (spelt ts ++ after) pieces ∧ WellSpelt true after ts
  | _, after, .blank c :: ts => (c = ' ' ∨ c = '\t') ∧ WellSpelt false after ts
  | inWord, after, .separator c :: ts =>
    c ∈ separators ∧ ¬ (c = '&' ∧ inWord = false ∧ (spelt ts ++ after).head? = some '>') ∧ WellSpelt false after ts
  | inWord, after, .redirect fd target :: ts =>
    (∀ c ∈ fd, inWord = false ∧ (c.isDigit = true ∨ c = '&')) ∧ target.Harmless ∧ WellSpelt false after ts

/-! ## Quotes -/

variable {s s' : Scan} {text after : List Char}

theorem scan_skip (n : ℕ) (s : Scan) (text : List Char) : scan n s text = scan 0 s (text.drop n) := by
  induction n generalizing text with
  | zero => rfl
  | succ n ih =>
    cases text with
    | nil => simp [scan]
    | cons c rest => exact ih rest

theorem add_add (s : Scan) (a b : List Char) : (s.add a).add b = s.add (a ++ b) := by
  simp [Scan.add]

theorem add_nil (s : Scan) : s.add [] = s := by
  simp [Scan.add]

theorem scan_single {body : List Char} (hbody : '\'' ∉ body) (hs : s.quote = .single) (after : List Char) :
    scan 0 s (body ++ '\'' :: after) = scan 0 { s.add body with quote := .bare } after := by
  induction body generalizing s with
  | nil =>
    rw [add_nil, List.nil_append, scan, if_pos hs, if_pos rfl]
  | cons c body ih =>
    have hc : c ≠ '\'' := fun h => hbody (List.mem_cons.mpr (Or.inl h.symm))
    have hrest := ih (s := s.add [c]) (fun h => hbody (List.mem_cons_of_mem c h)) hs
    rw [List.cons_append, scan, if_pos hs, if_neg hc, hrest, add_add]
    rfl

theorem single_closes (hs : s.quote = .single) (hscan : scan 0 s text = some s') (hs' : s'.quote = .bare) :
    ∃ body after, text = body ++ '\'' :: after ∧ '\'' ∉ body := by
  induction text generalizing s with
  | nil =>
    rw [scan, Option.some_inj] at hscan
    rw [hscan, hs'] at hs
    cases hs
  | cons c rest ih =>
    by_cases hc : c = '\''
    · exact ⟨[], rest, by rw [hc]; rfl, List.not_mem_nil⟩
    · rw [scan, if_pos hs, if_neg hc] at hscan
      obtain ⟨body, after, rfl, hbody⟩ := ih (s := s.add [c]) hs hscan
      refine ⟨c :: body, after, rfl, fun hin => ?_⟩
      rcases List.mem_cons.mp hin with h | h
      · exact hc h.symm
      · exact hbody h

theorem scan_double {body : List Quoted} (hbody : WellQuoted body) (hs : s.quote = .double) (after : List Char) :
    scan 0 s (body.flatMap Quoted.text ++ '"' :: after) = scan 0 { s.add (body.map Quoted.char) with quote := .bare } after := by
  have hnot : ¬ s.quote = .single := by
    rw [hs]
    decide
  induction body generalizing s with
  | nil =>
    rw [List.flatMap_nil, List.nil_append, scan, if_neg hnot, if_neg (by simp), if_pos hs, if_pos rfl, List.map_nil, add_nil]
  | cons q body ih =>
    cases q with
    | plain c =>
      obtain ⟨hquote, hback, htick, hdollar, hrest⟩ := hbody
      have hnext : ¬ (c = '$' ∧ (body.flatMap Quoted.text ++ '"' :: after).head? = some '(') := by
        rintro ⟨hc, hhead⟩
        cases htext : body.flatMap Quoted.text with
        | nil =>
          rw [htext] at hhead
          cases hhead
        | cons d more =>
          rw [htext] at hhead hdollar
          exact hdollar ⟨hc, hhead⟩
      have hstep : scan 0 s (c :: (body.flatMap Quoted.text ++ '"' :: after)) =
          scan 0 (s.add [c]) (body.flatMap Quoted.text ++ '"' :: after) := by
        rw [scan, if_neg hnot, if_neg fun h => h.elim htick hnext, if_pos hs, if_neg hquote, if_neg fun h => hback h.1]
      rw [List.flatMap_cons, List.append_assoc]
      refine hstep.trans ((ih (s := s.add [c]) hrest hs hnot).trans ?_)
      rw [add_add]
      rfl
    | escaped c =>
      have hstep : scan 0 s ('\\' :: c :: (body.flatMap Quoted.text ++ '"' :: after)) =
          scan 0 (s.add [c]) (body.flatMap Quoted.text ++ '"' :: after) := by
        rw [scan, if_neg hnot, if_neg (by simp), if_pos hs, if_neg (by decide), if_pos ⟨rfl, List.cons_ne_nil _ _⟩]
        rfl
      rw [List.flatMap_cons, List.append_assoc]
      refine hstep.trans ((ih (s := s.add [c]) hbody hs hnot).trans ?_)
      rw [add_add]
      rfl

theorem double_closes (hs : s.quote = .double) (hscan : scan 0 s text = some s') (hs' : s'.quote = .bare) :
    ∃ body after, text = body.flatMap Quoted.text ++ '"' :: after ∧ WellQuoted body := by
  have hnot : ¬ s.quote = .single := by
    rw [hs]
    decide
  induction hn : text.length using Nat.strong_induction_on generalizing s text with
  | _ n ih =>
    cases text with
    | nil =>
      rw [scan, Option.some_inj] at hscan
      rw [hscan, hs'] at hs
      cases hs
    | cons c rest =>
      rw [scan, if_neg hnot] at hscan
      by_cases hbad : c = '`' ∨ c = '$' ∧ rest.head? = some '('
      · rw [if_pos hbad] at hscan
        cases hscan
      · rw [if_neg hbad, if_pos hs] at hscan
        by_cases hquote : c = '"'
        · exact ⟨[], rest, by rw [hquote]; rfl, trivial⟩
        · rw [if_neg hquote] at hscan
          by_cases hescape : c = '\\' ∧ rest ≠ []
          · rw [if_pos hescape, scan_skip] at hscan
            obtain ⟨hc, hrest⟩ := hescape
            obtain ⟨d, more, rfl⟩ := List.exists_cons_of_ne_nil hrest
            obtain ⟨body, after, hbody, hwell⟩ := ih more.length (by rw [← hn, List.length_cons, List.length_cons]; omega) (s := s.add [d]) hs hscan hnot rfl
            change more = _ at hbody
            refine ⟨.escaped d :: body, after, ?_, hwell⟩
            rw [hc, hbody]
            rfl
          · rw [if_neg hescape] at hscan
            obtain ⟨body, after, hbody, hwell⟩ := ih rest.length (by rw [← hn]; simp) (s := s.add [c]) hs hscan hnot rfl
            refine ⟨.plain c :: body, after, by rw [hbody]; rfl, hquote, fun hc => hescape ⟨hc, ?_⟩, fun hc => hbad (Or.inl hc),
              fun hc => hbad (Or.inr ⟨hc.1, ?_⟩), hwell⟩
            · rw [hbody]
              simp
            · have hhead := hc.2
              rw [hbody]
              cases htext : body.flatMap Quoted.text with
              | nil =>
                rw [htext] at hhead
                cases hhead
              | cons d more =>
                rw [htext] at hhead
                exact hhead

/-! ## Pieces of a word -/

/-- A word goes on. -/
def Scan.take (s : Scan) (text : List Char) : Scan := { s.add text with inWord := true }

theorem take_take (s : Scan) (a b : List Char) : (s.take a).take b = s.take (a ++ b) := by
  simp [Scan.take, Scan.add]

theorem not_special {c : Char} (h : c ∉ special) :
    c ≠ '`' ∧ c ≠ '\\' ∧ c ≠ '\'' ∧ c ≠ '"' ∧ c ≠ ' ' ∧ c ≠ '\t' ∧ c ≠ '>' ∧ c ∉ separators := by
  unfold special at h
  simp only [List.mem_append, List.mem_cons, List.not_mem_nil, or_false, not_or] at h
  obtain ⟨⟨h₁, h₂, h₃, h₄, h₅, h₆, h₇⟩, h₈⟩ := h
  exact ⟨h₁, h₂, h₃, h₄, h₅, h₆, h₇, h₈⟩

theorem bare_not (hs : s.quote = .bare) : ¬ s.quote = .single ∧ ¬ s.quote = .double := by
  rw [hs]
  exact ⟨by decide, by decide⟩

theorem scan_piece (hs : s.quote = .bare) {p : Piece} (hp : WellFormed (!s.inWord) after p) :
    scan 0 s (p.text ++ after) = scan 0 (s.take p.value) after := by
  obtain ⟨hsingle, hdouble⟩ := bare_not hs
  cases p with
  | bare c =>
    obtain ⟨hspecial, hdollar, hless, hdigit⟩ := hp
    obtain ⟨htick, hback, hquote, hquotes, hspace, htab, hgreater, hseparator⟩ := not_special hspecial
    have hand : c ≠ '&' := fun h => hseparator (by rw [h]; decide)
    change scan 0 s (c :: after) = _
    rw [scan, if_neg hsingle, if_neg fun h => h.elim htick hdollar, if_neg hdouble, if_neg hback,
      if_neg fun h => h.elim hquote hquotes, if_neg fun h => h.elim hspace htab, if_neg, if_neg hless, if_neg hseparator]
    · rfl
    · rintro (h | ⟨hhead, hword, h | h⟩)
      · exact hgreater h
      · exact hand h
      · exact hdigit ⟨by rw [hword]; rfl, h, hhead⟩
  | escaped c =>
    change scan 0 s ('\\' :: c :: after) = _
    rw [scan, if_neg hsingle, if_neg (by simp), if_neg hdouble, if_pos rfl]
    rfl
  | single body =>
    change scan 0 s ('\'' :: (body ++ ['\'']) ++ after) = _
    rw [List.cons_append, scan, if_neg hsingle, if_neg (by simp), if_neg hdouble, if_neg (by decide),
      if_pos (Or.inl rfl), List.append_assoc]
    exact (scan_single hp rfl after).trans (by rw [Scan.take]; cases s; cases hs; rfl)
  | double body =>
    change scan 0 s ('"' :: (body.flatMap Quoted.text ++ ['"']) ++ after) = _
    rw [List.cons_append, scan, if_neg hsingle, if_neg (by simp), if_neg hdouble, if_neg (by decide),
      if_pos (Or.inr rfl), List.append_assoc]
    exact (scan_double hp rfl after).trans (by rw [Scan.take]; cases s; cases hs; rfl)
  | dangling =>
    have hp : after = [] := hp
    subst hp
    change scan 0 s ('\\' :: []) = scan 0 _ []
    rw [scan.eq_def 0 s ('\\' :: [])]
    dsimp only
    rw [if_neg hsingle, if_neg (by simp), if_neg hdouble, if_pos rfl]
    rfl

theorem scan_pieces (hs : s.quote = .bare) {ps : List Piece} (hword : s.inWord = true) (hps : WellPieced false after ps) :
    scan 0 s (ps.flatMap Piece.text ++ after) = scan 0 (s.take (ps.flatMap Piece.value)) after := by
  induction ps generalizing s with
  | nil =>
    cases s
    cases hword
    simp [Scan.take, Scan.add]
  | cons p ps ih =>
    obtain ⟨hp, hrest⟩ := hps
    rw [List.flatMap_cons, List.append_assoc, scan_piece hs (by rw [hword]; exact hp)]
    exact (ih (s := s.take p.value) hs rfl hrest).trans (by rw [take_take]; rfl)

theorem scan_word (hs : s.quote = .bare) {ps : List Piece} (hword : s.inWord = false) (hne : ps ≠ [])
    (hps : WellPieced true after ps) : scan 0 s (ps.flatMap Piece.text ++ after) = scan 0 (s.take (ps.flatMap Piece.value)) after := by
  cases ps with
  | nil => cases hne rfl
  | cons p ps =>
    obtain ⟨hp, hrest⟩ := hps
    rw [List.flatMap_cons, List.append_assoc, scan_piece hs (by rw [hword]; exact hp)]
    exact (scan_pieces (s := s.take p.value) hs rfl hrest).trans (by rw [take_take]; rfl)

/-! ## Redirections -/

theorem takeWhile_blanks {blanks rest : List Char} (h : ∀ c ∈ blanks, isBlank c = true) :
    (blanks ++ devNull ++ rest).takeWhile isBlank = blanks ∧ (blanks ++ devNull ++ rest).dropWhile isBlank = devNull ++ rest := by
  have hstop : (devNull ++ rest).takeWhile isBlank = [] ∧ (devNull ++ rest).dropWhile isBlank = devNull ++ rest := ⟨rfl, rfl⟩
  rw [List.append_assoc, List.takeWhile_append_of_pos h, List.dropWhile_append_of_pos h, hstop.1, hstop.2, List.append_nil]
  exact ⟨rfl, rfl⟩

theorem descriptor_spelt {fd : Option Char} (hfd : ∀ c ∈ fd, c.isDigit = true ∨ c = '&') (rest : List Char) :
    descriptor (fd.toList ++ '>' :: rest) = fd.toList := by
  cases fd with
  | none => rfl
  | some c =>
    have hc : (c.isDigit || decide (c = '&')) = true := by
      rcases hfd c rfl with h | h <;> simp [h]
    exact if_pos hc

/-- What a redirection that harms nothing says, `harmlessRedirect` matches. -/
theorem harmless_spelt {fd : Option Char} {target : Target} (hfd : ∀ c ∈ fd, c.isDigit = true ∨ c = '&')
    (htarget : target.Harmless) (after : List Char) :
    harmlessRedirect (fd.toList ++ '>' :: (target.text ++ after)) = some (fd.toList ++ '>' :: target.text) := by
  unfold harmlessRedirect
  rw [descriptor_spelt hfd, List.drop_left]
  cases target with
  | null blanks =>
    obtain ⟨htake, hdrop⟩ := @takeWhile_blanks blanks after htarget
    change (if devNull <+: (blanks ++ devNull ++ after).dropWhile isBlank then
      some (fd.toList ++ '>' :: ((blanks ++ devNull ++ after).takeWhile isBlank ++ devNull)) else _) = _
    rw [htake, hdrop, if_pos (List.prefix_append _ _)]
    rfl
  | copy digit =>
    have hno : ¬ devNull <+: ('&' :: digit :: after).dropWhile isBlank := by
      change ¬ devNull <+: '&' :: digit :: after
      rw [show devNull = '/' :: ['d', 'e', 'v', '/', 'n', 'u', 'l', 'l'] from rfl, List.cons_prefix_cons]
      rintro ⟨h, -⟩
      exact absurd h (by decide)
    change (if devNull <+: ('&' :: digit :: after).dropWhile isBlank then _
      else if digit.isDigit = true then some (fd.toList ++ ['>', '&', digit]) else none) = _
    have hdigit : digit.isDigit = true := htarget
    rw [if_neg hno, if_pos hdigit]
    rfl

/-- What `harmlessRedirect` matches is a redirection that harms nothing. -/
theorem harmless_read {fd : Option Char} (hfd : ∀ c ∈ fd, c.isDigit = true ∨ c = '&') {rest harmless : List Char}
    (h : harmlessRedirect (fd.toList ++ '>' :: rest) = some harmless) :
    ∃ target after, rest = Target.text target ++ after ∧ harmless = fd.toList ++ '>' :: target.text ∧ target.Harmless := by
  unfold harmlessRedirect at h
  rw [descriptor_spelt hfd, List.drop_left] at h
  change (if devNull <+: rest.dropWhile isBlank then some (fd.toList ++ '>' :: (rest.takeWhile isBlank ++ devNull)) else _) = _ at h
  by_cases hnull : devNull <+: rest.dropWhile isBlank
  · rw [if_pos hnull, Option.some_inj] at h
    obtain ⟨after, hafter⟩ := hnull
    refine ⟨.null (rest.takeWhile isBlank), after, ?_, h.symm, fun c hc => List.mem_takeWhile_imp hc⟩
    change rest = rest.takeWhile isBlank ++ devNull ++ after
    rw [List.append_assoc, hafter, List.takeWhile_append_dropWhile]
  · rw [if_neg hnull] at h
    split at h
    · split at h
      · rename_i d more hdigit
        rw [Option.some_inj] at h
        exact ⟨.copy d, more, rfl, h.symm, hdigit⟩
      · cases h
    · cases h

/-! ## Commands -/

def Scan.token (s : Scan) : Token → Scan
  | .word pieces => s.take (pieces.flatMap Piece.value)
  | .blank _ => s.endWord
  | .separator _ => s.endPart
  | .redirect _ _ => s.endWord

theorem separator_not {c : Char} (h : c ∈ separators) :
    c ≠ '`' ∧ c ≠ '$' ∧ c ≠ '\\' ∧ c ≠ '\'' ∧ c ≠ '"' ∧ c ≠ ' ' ∧ c ≠ '\t' ∧ c ≠ '>' ∧ c ≠ '<' ∧ c.isDigit = false := by
  unfold separators at h
  simp only [List.mem_cons, List.not_mem_nil, or_false] at h
  rcases h with rfl | rfl | rfl | rfl | rfl | rfl <;> decide

/-- Where a redirection stands, the scanner looks for one that harms nothing. -/
theorem scan_redirect (hs : s.quote = .bare) {fd : Option Char} (hfd : ∀ c ∈ fd, s.inWord = false ∧ (c.isDigit = true ∨ c = '&'))
    (rest : List Char) : scan 0 s (fd.toList ++ '>' :: rest) =
      (harmlessRedirect (fd.toList ++ '>' :: rest)).bind fun harmless =>
        scan 0 s.endWord ((fd.toList ++ '>' :: rest).drop (max harmless.length 1)) := by
  obtain ⟨hsingle, hdouble⟩ := bare_not hs
  have hjump : ∀ (harmless : List Char) (c : Char) (more : List Char),
      scan (harmless.length - 1) s.endWord more = scan 0 s.endWord ((c :: more).drop (max harmless.length 1)) := fun harmless c more => by
    rw [scan_skip]
    have hmax : max harmless.length 1 = harmless.length - 1 + 1 := by omega
    rw [hmax, List.drop_succ_cons]
  cases fd with
  | none =>
    change scan 0 s ('>' :: rest) = _
    rw [scan, if_neg hsingle, if_neg (by simp), if_neg hdouble, if_neg (by decide), if_neg (by decide), if_neg (by decide),
      if_pos (Or.inl rfl)]
    change _ = (harmlessRedirect ('>' :: rest)).bind _
    cases harmlessRedirect ('>' :: rest) with
    | none => rfl
    | some harmless => exact hjump harmless '>' rest
  | some c =>
    obtain ⟨hword, hc⟩ := hfd c rfl
    have hplain : c ≠ '`' ∧ c ≠ '$' ∧ c ≠ '\\' ∧ c ≠ '\'' ∧ c ≠ '"' ∧ c ≠ ' ' ∧ c ≠ '\t' := by
      rcases hc with hc | rfl
      · refine ⟨?_, ?_, ?_, ?_, ?_, ?_, ?_⟩ <;> (rintro rfl; exact absurd hc (by decide))
      · decide
    obtain ⟨htick, hdollar, hback, hquote, hquotes, hspace, htab⟩ := hplain
    change scan 0 s (c :: '>' :: rest) = _
    rw [scan, if_neg hsingle, if_neg fun h => h.elim htick fun h => hdollar h.1, if_neg hdouble, if_neg hback,
      if_neg fun h => h.elim hquote hquotes, if_neg fun h => h.elim hspace htab, if_pos (Or.inr ⟨rfl, hword, hc.symm⟩)]
    change _ = (harmlessRedirect (c :: '>' :: rest)).bind _
    cases harmlessRedirect (c :: '>' :: rest) with
    | none => rfl
    | some harmless => exact hjump harmless c ('>' :: rest)

theorem scan_blank (hs : s.quote = .bare) {c : Char} (hc : c = ' ' ∨ c = '\t') (rest : List Char) :
    scan 0 s (c :: rest) = scan 0 s.endWord rest := by
  obtain ⟨hsingle, hdouble⟩ := bare_not hs
  rw [scan, if_neg hsingle, if_neg, if_neg hdouble, if_neg, if_neg, if_pos hc]
  · rcases hc with rfl | rfl <;> decide
  · rcases hc with rfl | rfl <;> decide
  · rcases hc with rfl | rfl <;> simp

theorem scan_separator (hs : s.quote = .bare) {c : Char} (hc : c ∈ separators) {rest : List Char}
    (hand : ¬ (c = '&' ∧ s.inWord = false ∧ rest.head? = some '>')) : scan 0 s (c :: rest) = scan 0 s.endPart rest := by
  obtain ⟨hsingle, hdouble⟩ := bare_not hs
  obtain ⟨htick, hdollar, hback, hquote, hquotes, hspace, htab, hgreater, hless, hdigit⟩ := separator_not hc
  rw [scan, if_neg hsingle, if_neg fun h => h.elim htick fun h => hdollar h.1, if_neg hdouble, if_neg hback,
    if_neg fun h => h.elim hquote hquotes, if_neg fun h => h.elim hspace htab, if_neg, if_neg fun h => hless h.1, if_pos hc]
  rintro (h | ⟨hhead, hword, h | h⟩)
  · exact hgreater h
  · exact hand ⟨h, hword, hhead⟩
  · rw [hdigit] at h
    cases h

theorem scan_spelt {ts : List Token} (hs : s.quote = .bare) (hts : WellSpelt s.inWord after ts) :
    scan 0 s (spelt ts ++ after) = scan 0 (ts.foldl Scan.token s) after := by
  induction ts generalizing s with
  | nil => rfl
  | cons t ts ih =>
    have hspelt : spelt (t :: ts) ++ after = t.text ++ (spelt ts ++ after) := by
      unfold spelt
      rw [List.flatMap_cons, List.append_assoc]
    rw [hspelt, List.foldl_cons]
    cases t with
    | word pieces =>
      obtain ⟨hword, hne, hpieces, hrest⟩ := hts
      exact (scan_word hs hword hne hpieces).trans (ih (s := s.take _) hs hrest)
    | blank c =>
      obtain ⟨hc, hrest⟩ := hts
      exact (scan_blank hs hc _).trans (ih (s := s.endWord) hs hrest)
    | separator c =>
      obtain ⟨hc, hand, hrest⟩ := hts
      exact (scan_separator hs hc hand).trans (ih (s := s.endPart) hs hrest)
    | redirect fd target =>
      obtain ⟨hfd, htarget, hrest⟩ := hts
      have htext : Token.text (.redirect fd target) ++ (spelt ts ++ after) = fd.toList ++ '>' :: (target.text ++ (spelt ts ++ after)) := by
        unfold Token.text
        rw [List.append_assoc, List.cons_append]
      rw [htext, scan_redirect hs hfd, harmless_spelt (fun c hc => (hfd c hc).2) htarget]
      have hpos : max (fd.toList ++ '>' :: target.text).length 1 = (fd.toList ++ '>' :: target.text).length := by
        rw [List.length_append, List.length_cons]
        omega
      rw [Option.bind_some, hpos, ← List.cons_append, ← List.append_assoc, List.drop_left]
      exact ih (s := s.endWord) hs hrest

/-- Outside a word, no text waits. -/
def Scan.Clean (s : Scan) : Prop := s.inWord = false → s.word = []

theorem clean_token (s : Scan) (t : Token) : (s.token t).Clean := by
  cases t with
  | word pieces => intro h; cases h
  | _ => exact fun _ => rfl

theorem endWord_endWord (s : Scan) : s.endWord.endWord = s.endWord := rfl

theorem token_parts {t : Token} (hclean : s.Clean) (hword : ∀ pieces, t = .word pieces → s.inWord = false)
    (ts : List Token) : s.parts ++ commands s.endWord.words (t :: ts) =
      (s.token t).parts ++ commands (s.token t).endWord.words ts := by
  cases t with
  | word pieces =>
    have hin := hword pieces rfl
    have hnil := hclean hin
    unfold Scan.token Scan.endWord Scan.take Scan.add
    rw [hin, hnil]
    rfl
  | blank c => rfl
  | redirect fd target => rfl
  | separator c =>
    change s.parts ++ ((if s.endWord.words = [] then [] else [s.endWord.words]) ++ commands [] ts) =
      (if s.endWord.words = [] then s.parts else s.parts ++ [s.endWord.words]) ++ commands [] ts
    split <;> simp

theorem endPart_parts (s : Scan) : s.endPart.parts = s.parts ++ commands s.endWord.words [] := by
  unfold Scan.endPart commands
  dsimp only
  split <;> simp

theorem tokens_parts {ts : List Token} (hclean : s.Clean) (hts : WellSpelt s.inWord after ts) :
    (ts.foldl Scan.token s).endPart.parts = s.parts ++ commands s.endWord.words ts ∧
      (s.quote = .bare → (ts.foldl Scan.token s).quote = .bare) := by
  induction ts generalizing s with
  | nil => exact ⟨endPart_parts s, id⟩
  | cons t ts ih =>
    have hword : ∀ pieces, t = .word pieces → s.inWord = false := by
      rintro pieces rfl
      exact hts.1
    have hrest : WellSpelt (s.token t).inWord after ts := by
      cases t with
      | word pieces => exact hts.2.2.2
      | blank c => exact hts.2
      | separator c => exact hts.2.2
      | redirect fd target => exact hts.2.2
    have hquote : s.quote = .bare → (s.token t).quote = .bare := by
      cases t <;> exact id
    obtain ⟨hparts, hbare⟩ := ih (clean_token s t) hrest
    rw [token_parts hclean hword]
    exact ⟨hparts, fun h => hbare (hquote h)⟩

/-- A command that is well spelt is split as it is spelt. -/
theorem splitCommand_spelt {ts : List Token} (hts : WellSpelt false [] ts) :
    splitCommand (spelt ts) = some (commands [] ts) := by
  have hscan := scan_spelt (s := .start) rfl hts
  obtain ⟨hparts, hquote⟩ := tokens_parts (s := .start) (fun _ => rfl) hts
  rw [List.append_nil] at hscan
  unfold splitCommand
  rw [hscan]
  change (if (ts.foldl Scan.token .start).quote = .bare then _ else _) = _
  rw [if_pos (hquote rfl), hparts]
  rfl

/-! ## Reading a command -/

/-- The scanner goes on by a piece of a word or by another token. -/
theorem scan_step {c : Char} {rest : List Char} (hs : s.quote = .bare) (hscan : scan 0 s (c :: rest) = some s')
    (hs' : s'.quote = .bare) :
    (∃ p after, c :: rest = Piece.text p ++ after ∧ WellFormed (!s.inWord) after p) ∨
      ∃ t after, c :: rest = Token.text t ++ after ∧ (∀ pieces, t ≠ .word pieces) ∧ WellSpelt s.inWord after [t] := by
  obtain ⟨hsingle, hdouble⟩ := bare_not hs
  rw [scan, if_neg hsingle] at hscan
  by_cases hbad : c = '`' ∨ c = '$' ∧ rest.head? = some '('
  · rw [if_pos hbad] at hscan
    cases hscan
  rw [if_neg hbad, if_neg hdouble] at hscan
  by_cases hback : c = '\\'
  · left
    rw [hback]
    cases rest with
    | nil => exact ⟨.dangling, [], rfl, rfl⟩
    | cons d more => exact ⟨.escaped d, more, rfl, trivial⟩
  rw [if_neg hback] at hscan
  by_cases hquote : c = '\'' ∨ c = '"'
  · rw [if_pos hquote] at hscan
    left
    by_cases hdouble : c = '"'
    · rw [if_pos hdouble] at hscan
      obtain ⟨body, after, hrest, hbody⟩ := double_closes rfl hscan hs'
      refine ⟨.double body, after, ?_, hbody⟩
      rw [hdouble, hrest]
      simp [Piece.text]
    · rw [if_neg hdouble] at hscan
      obtain ⟨body, after, hrest, hbody⟩ := single_closes rfl hscan hs'
      refine ⟨.single body, after, ?_, hbody⟩
      rw [hquote.resolve_right hdouble, hrest]
      simp [Piece.text]
  rw [if_neg hquote] at hscan
  by_cases hblank : c = ' ' ∨ c = '\t'
  · exact Or.inr ⟨.blank c, rest, rfl, fun pieces h => (by cases h), hblank, trivial⟩
  rw [if_neg hblank] at hscan
  by_cases hredirect : c = '>' ∨ rest.head? = some '>' ∧ s.inWord = false ∧ (c = '&' ∨ c.isDigit = true)
  · right
    rw [if_pos hredirect] at hscan
    have hmatched : ∃ harmless, harmlessRedirect (c :: rest) = some harmless := by
      cases hharmless : harmlessRedirect (c :: rest) with
      | none =>
        rw [hharmless] at hscan
        cases hscan
      | some harmless => exact ⟨harmless, rfl⟩
    obtain ⟨harmless, hharmless⟩ := hmatched
    have hfound : ∃ fd more, c :: rest = Option.toList fd ++ '>' :: more ∧
        ∀ d ∈ fd, s.inWord = false ∧ (d.isDigit = true ∨ d = '&') := by
      by_cases hgreater : c = '>'
      · exact ⟨none, rest, by rw [hgreater]; rfl, fun d hd => by cases hd⟩
      · obtain ⟨hhead, hword, hc⟩ := hredirect.resolve_left hgreater
        cases rest with
        | nil => cases hhead
        | cons d more =>
          rw [List.head?_cons, Option.some_inj] at hhead
          refine ⟨some c, more, by rw [hhead]; rfl, fun x hx => ?_⟩
          rw [Option.mem_some_iff] at hx
          rw [← hx]
          exact ⟨hword, hc.symm⟩
    obtain ⟨fd, more, htext, hfd⟩ := hfound
    rw [htext] at hharmless
    obtain ⟨target, after, hmore, -, htarget⟩ := harmless_read (fun d hd => (hfd d hd).2) hharmless
    refine ⟨.redirect fd target, after, ?_, fun pieces h => (by cases h), hfd, htarget, trivial⟩
    rw [htext, hmore]
    simp [Token.text]
  rw [if_neg hredirect] at hscan
  by_cases hless : c = '<' ∧ rest.head? = some '('
  · rw [if_pos hless] at hscan
    cases hscan
  rw [if_neg hless] at hscan
  by_cases hseparator : c ∈ separators
  · refine Or.inr ⟨.separator c, rest, rfl, fun pieces h => (by cases h), hseparator, ?_, trivial⟩
    rintro ⟨hand, hword, hhead⟩
    exact hredirect (Or.inr ⟨hhead, hword, Or.inl hand⟩)
  · refine Or.inl ⟨.bare c, rest, rfl, ?_, fun h => hbad (Or.inr h), hless, ?_⟩
    · unfold special
      simp only [List.mem_append, List.mem_cons, List.not_mem_nil, or_false, not_or]
      obtain ⟨hsq, hdq⟩ := not_or.mp hquote
      obtain ⟨hspace, htab⟩ := not_or.mp hblank
      exact ⟨⟨fun h => hbad (Or.inl h), hback, hsq, hdq, hspace, htab, fun h => hredirect (Or.inl h)⟩, hseparator⟩
    · rintro ⟨hfirst, hdigit, hhead⟩
      refine hredirect (Or.inr ⟨hhead, ?_, Or.inr hdigit⟩)
      simpa using hfirst

theorem wellSpelt_cons {t : Token} {ts : List Token} {inWord : Bool} (hnot : ∀ pieces, t ≠ .word pieces)
    (ht : WellSpelt inWord (spelt ts ++ after) [t]) (hts : WellSpelt false after ts) : WellSpelt inWord after (t :: ts) := by
  cases t with
  | word pieces => exact absurd rfl (hnot pieces)
  | blank c => exact ⟨ht.1, hts⟩
  | separator c => exact ⟨ht.1, ht.2.1, hts⟩
  | redirect fd target => exact ⟨ht.1, ht.2.1, hts⟩

theorem inWord_token {t : Token} (hnot : ∀ pieces, t ≠ .word pieces) : (s.token t).inWord = false := by
  cases t with
  | word pieces => exact absurd rfl (hnot pieces)
  | _ => rfl

/-- What the scanner reads to its end is well spelt, but for what still belongs to the word it is in. -/
theorem scan_reads (hs : s.quote = .bare) (hscan : scan 0 s text = some s') (hs' : s'.quote = .bare) :
    ∃ ps ts, text = ps.flatMap Piece.text ++ spelt ts ∧ WellPieced false (spelt ts) ps ∧ WellSpelt s.inWord [] ts ∧
      (s.inWord = false → ps = []) := by
  induction hn : text.length using Nat.strong_induction_on generalizing s text with
  | _ n ih =>
    cases text with
    | nil => exact ⟨[], [], rfl, trivial, trivial, fun _ => rfl⟩
    | cons c rest =>
      have hlength : ∀ (a after : List Char), c :: rest = a ++ after → a ≠ [] → after.length < n := fun a after heq hne => by
        have hpos := List.length_pos_iff.mpr hne
        rw [← hn, heq, List.length_append]
        omega
      rcases scan_step hs hscan hs' with ⟨p, after, htext, hp⟩ | ⟨t, after, htext, hnot, hwell⟩
      · rw [htext, scan_piece hs hp] at hscan
        have hne : p.text ≠ [] := by cases p <;> exact List.cons_ne_nil _ _
        obtain ⟨ps, ts, rfl, hps, hts, -⟩ := ih after.length (hlength _ _ htext hne) (s := s.take p.value) hs hscan rfl
        have hword : c :: rest = (p :: ps).flatMap Piece.text ++ spelt ts := by
          rw [htext, List.flatMap_cons, List.append_assoc]
        cases hin : s.inWord with
        | true =>
          rw [hin] at hp
          exact ⟨p :: ps, ts, hword, ⟨hp, hps⟩, hts, fun h => (by cases h)⟩
        | false =>
          rw [hin] at hp
          refine ⟨[], .word (p :: ps) :: ts, hword, trivial, ⟨rfl, List.cons_ne_nil _ _, ?_, hts⟩, fun _ => rfl⟩
          rw [List.append_nil]
          exact ⟨hp, hps⟩
      · have hne : t.text ≠ [] := by
          cases t with
          | word pieces => exact absurd rfl (hnot pieces)
          | blank c => exact List.cons_ne_nil _ _
          | separator c => exact List.cons_ne_nil _ _
          | redirect fd target => exact List.append_ne_nil_of_right_ne_nil _ (List.cons_ne_nil _ _)
        have hone : spelt [t] = t.text := by simp [spelt]
        have htoken := scan_spelt hs hwell
        rw [hone, ← htext, hscan, List.foldl_cons, List.foldl_nil] at htoken
        have hquote : (s.token t).quote = .bare := by cases t <;> exact hs
        obtain ⟨ps, ts, hafter, -, hts, hnone⟩ := ih after.length (hlength _ _ htext hne) hquote htoken.symm rfl
        rw [inWord_token hnot] at hts hnone
        rw [hnone rfl, List.flatMap_nil, List.nil_append] at hafter
        rw [hafter] at hwell htext
        refine ⟨[], t :: ts, ?_, trivial, wellSpelt_cons hnot (by rwa [List.append_nil]) hts, fun _ => rfl⟩
        rw [htext]
        simp [spelt]

/-- A command is split exactly if it is well spelt: a row of words, blanks, separators and redirections that write no file,
without command or process substitution. Its parts are then the commands so spelt. -/
theorem splitCommand_iff (command : List Char) (parts : List (List (List Char))) : splitCommand command = some parts ↔
    ∃ ts, WellSpelt false [] ts ∧ command = spelt ts ∧ parts = commands [] ts := by
  constructor
  · intro h
    unfold splitCommand at h
    cases hscan : scan 0 .start command with
    | none =>
      rw [hscan] at h
      cases h
    | some s' =>
      rw [hscan] at h
      change (if s'.quote = .bare then some s'.endPart.parts else none) = some parts at h
      by_cases hquote : s'.quote = .bare
      · obtain ⟨ps, ts, htext, -, hts, hnone⟩ := scan_reads rfl hscan hquote
        rw [hnone rfl, List.flatMap_nil, List.nil_append] at htext
        have hsplit := splitCommand_spelt hts
        unfold splitCommand at hsplit
        rw [← htext, hscan] at hsplit
        exact ⟨ts, hts, htext, (Option.some_inj.mp (hsplit.symm.trans h)).symm⟩
      · rw [if_neg hquote] at h
        cases h
  · rintro ⟨ts, hts, rfl, rfl⟩
    exact splitCommand_spelt hts

end Haruspex.ReadOnlyCommand
