import Haruspex.Documents.Wrap
import Haruspex.Vcard.Slices

/-! A document's lines as blocks (`fs_tools/markdown_inline.rs`). -/
namespace Haruspex.Documents
open Rust (splitWhitespace isWhitespace trim byteLen)
open Vcard (sliceStr sliceStr_front sliceStr_back sliceStr_eq)
set_option autoImplicit false

inductive ImageAlignment where
  | left
  | center
  | right
  deriving DecidableEq

structure ImageOptions (F : Type) where
  alignment : ImageAlignment
  widthFraction : Option F

inductive DocumentBlock (F : Type) where
  | line (text : List Char)
  | monoBlock (lines : List MonoLine)
  | image (path : List Char) (options : ImageOptions F)

/-! ## Image lines -/

/-- `str::find` -/
def findChar (cs : List Char) (c : Char) : Option ℕ := if c ∈ cs then some (byteLen (cs.takeWhile (· ≠ c))) else none

/-- `str::rfind` -/
def rfindChar (cs : List Char) (c : Char) : Option ℕ :=
  if c ∈ cs then some (byteLen ((cs.reverse.dropWhile (· ≠ c)).tail).reverse) else none

def findWhitespace (cs : List Char) : Option ℕ :=
  if cs.any isWhitespace then some (byteLen (cs.takeWhile fun c => !isWhitespace c)) else none

section
variable {F : Type} (fraction : List Char → Option F)

def leftWord : List Char := ['l', 'e', 'f', 't']

def centerWord : List Char := ['c', 'e', 'n', 't', 'e', 'r']

def centreWord : List Char := ['c', 'e', 'n', 't', 'r', 'e']

def rightWord : List Char := ['r', 'i', 'g', 'h', 't']

/-- One word of a title; `fraction` reads a number, kept between 5 and 100, as a share. -/
def addOption (out : ImageOptions F) (raw : List Char) : ImageOptions F :=
  let token := raw.map Char.toLower
  if token = leftWord then { out with alignment := .left }
  else if token = centerWord ∨ token = centreWord then { out with alignment := .center }
  else if token = rightWord then { out with alignment := .right }
  else if token.getLast? = some '%' then
    match fraction (token.reverse.dropWhile (· = '%')).reverse with
    | some share => { out with widthFraction := some share }
    | none => out
  else out

def parseImageOptionsFromTitle (title : List Char) : ImageOptions F :=
  (splitWhitespace title).foldl (addOption fraction) ⟨.left, none⟩

/-- The path and the title of a reference; `none` is a slice inside a character. -/
def splitBody (body : List Char) : Option (List Char × List Char) :=
  match findWhitespace body with
  | some i => do
    let path ← sliceStr body 0 i
    let title ← sliceStr body (i + 1) (byteLen body)
    some (trim path, trim title)
  | none => some (trim body, [])

def quotedBy (q : Char) (title : List Char) : Bool := title.head? = some q && title.getLast? = some q

def unquote (title : List Char) : Option (List Char) :=
  if byteLen title ≥ 2 ∧ (quotedBy '"' title || quotedBy '\'' title) = true then sliceStr title 1 (byteLen title - 1)
  else some title

def imageOf (body : List Char) : Option (Option (List Char × ImageOptions F)) := do
  let (path, title) ← splitBody body
  if path = [] then some none
  else do
    let title ← unquote title
    some (some (path, parseImageOptionsFromTitle fraction title))

/-- After the alternative text: the reference in parentheses, and nothing else. -/
def imageAfter (afterAlt : List Char) : Option (Option (List Char × ImageOptions F)) :=
  if afterAlt.head? = some '(' then
    let inside := afterAlt.tail
    match rfindChar inside ')' with
    | none => some none
    | some close => do
      let after ← sliceStr inside (close + 1) (byteLen inside)
      if trim after ≠ [] then some none
      else do
        let body ← sliceStr inside 0 close
        imageOf fraction body
  else some none

def parseStandaloneImageLine (line : List Char) : Option (Option (List Char × ImageOptions F)) :=
  let trimmed := trim line
  if ['!', '['] <+: trimmed then
    let rest := trimmed.drop 2
    match findChar rest ']' with
    | none => some none
    | some altEnd => do
      let afterAlt ← sliceStr rest (altEnd + 1) (byteLen rest)
      imageAfter fraction afterAlt
  else some none

end

/-! ## Tables -/

def isTableRow (line : List Char) : Bool :=
  let trimmed := trim line
  trimmed.head? = some '|' && trimmed.getLast? = some '|' && trimmed.count '|' ≥ 2

def isTableSeparator (line : List Char) : Bool :=
  let trimmed := trim line
  if trimmed.head? ≠ some '|' ∨ trimmed.getLast? ≠ some '|' then false
  else trimmed.all (fun c => c = '|' || c = ':' || c = '-' || isWhitespace c) && trimmed.contains '-'

def parseTableRow (line : List Char) : List (List Char) :=
  let stripped := ((((trim line).dropWhile (· = '|')).reverse.dropWhile (· = '|')).reverse)
  (stripped.splitOn '|').map trim

/-! ## Blocks -/

section
variable {F : Type} (fraction : List Char → Option F)

/-- A table starts here. -/
def tableAt (line : List Char) (rest : List (List Char)) : Bool := isTableRow line && rest.head?.any isTableSeparator

/-- The blocks of some lines; `none` is a slice inside a character. -/
def preprocessLines (lines : List (List Char)) : Option (List (DocumentBlock F)) :=
  match lines with
  | [] => some []
  | line :: rest =>
    match parseStandaloneImageLine fraction line with
    | none => none
    | some (some (path, options)) => (preprocessLines rest).map (.image path options :: ·)
    | some none =>
      if tableAt line rest then
        (preprocessLines (rest.tail.dropWhile isTableRow)).map
          (.monoBlock (formatTableAsMonoblock (parseTableRow line) ((rest.tail.takeWhile isTableRow).map parseTableRow)) :: ·)
      else (preprocessLines rest).map (.line line :: ·)
termination_by lines.length
decreasing_by
  · simp
  · have hlen := List.Sublist.length_le (List.dropWhile_sublist (l := rest.tail) isTableRow)
    simp only [List.length_cons, List.length_tail] at hlen ⊢
    omega
  · simp

end

/-! ## What an image line is -/

/-- A line of an image and nothing else: its alternative text, and what stands in the parentheses. -/
def ImageLine (line alt body : List Char) : Prop :=
  trim line = '!' :: '[' :: (alt ++ ']' :: '(' :: (body ++ [')'])) ∧ ']' ∉ alt

/-- The path, up to the first white space. -/
def pathOf (body : List Char) : List Char := body.takeWhile fun c => !isWhitespace c

/-- The title, after it. -/
def titleOf (body : List Char) : List Char := trim (body.dropWhile fun c => !isWhitespace c).tail

/-- The white space after the path is more than one byte long. -/
def WideBlank (body : List Char) : Prop := ∃ c ∈ body.find? isWhitespace, 1 < c.utf8Size

/-- No `)` closes the parenthesis the text stands in. -/
def staysOpen (depth : ℕ) (text : List Char) : Bool :=
  match text with
  | [] => true
  | c :: rest =>
    if c = '(' then staysOpen (depth + 1) rest
    else if c = ')' then depth ≠ 0 && staysOpen (depth - 1) rest
    else staysOpen depth rest

/-- A title between two quotes. -/
def Quoted (title : List Char) : Prop := ∃ q inside, title = q :: (inside ++ [q]) ∧ (q = '"' ∨ q = '\'') ∧ q ∉ inside

/-- What stands in the parentheses of one reference does not close them. -/
def OneReference (body : List Char) : Prop :=
  staysOpen 0 (pathOf body) = true ∧ (staysOpen 0 (titleOf body) = true ∨ Quoted (titleOf body))

theorem isWhitespace_of_trim_nil {cs : List Char} (h : trim cs = []) : ∀ c ∈ cs, isWhitespace c = true := by
  rw [trim, List.reverse_eq_nil_iff, List.dropWhile_eq_nil_iff] at h
  intro c hc
  by_contra hblank
  obtain ⟨front, rest, rfl, -⟩ := List.eq_append_cons_of_mem hc
  have hkept : c ∈ (front ++ c :: rest).dropWhile isWhitespace := by
    rw [List.dropWhile_append]
    split
    · rw [List.dropWhile_cons_of_neg hblank]
      exact List.mem_cons_self
    · exact List.mem_append_right _ List.mem_cons_self
  exact hblank (h c (List.mem_reverse.mpr hkept))

theorem trim_last {cs front : List Char} {c : Char} (h : trim cs = front ++ [c]) : isWhitespace c = false := by
  rw [trim, List.reverse_eq_iff, List.reverse_append, List.reverse_singleton, List.singleton_append] at h
  have hhead := List.head?_dropWhile_not isWhitespace (cs.dropWhile isWhitespace).reverse
  rw [h] at hhead
  simpa using hhead

/-- A text is cut at the last place of a character. -/
theorem cut_at_last {c : Char} {l : List Char} (h : c ∈ l) :
    ∃ front back, l = front ++ c :: back ∧ c ∉ back ∧
      ((l.reverse.dropWhile (· ≠ c)).tail).reverse = front := by
  have hcut := cut_at (List.mem_reverse.mpr h)
  refine ⟨((l.reverse.dropWhile (· ≠ c)).tail).reverse, (l.reverse.takeWhile (· ≠ c)).reverse, ?_, ?_, rfl⟩
  · have hrev := congrArg List.reverse hcut
    simpa using hrev
  · rw [List.mem_reverse]
    exact not_mem_takeWhile _ _

theorem sliceStr_after {a b : List Char} {c : Char} (hc : c.utf8Size = 1) :
    sliceStr (a ++ c :: b) (byteLen a + 1) (byteLen (a ++ c :: b)) = some b := by
  have h := sliceStr_back (a ++ [c]) b
  rwa [Rust.byteLen_append, Vcard.byteLen_cons, hc, List.append_assoc] at h

/-- No slice starts inside a character. -/
theorem sliceStr_inside {a b : List Char} {c : Char} (hc : 1 < c.utf8Size) (stop : ℕ) :
    sliceStr (a ++ c :: b) (byteLen a + 1) stop = none := by
  have hboundary : FsTools.isCharBoundary (a ++ c :: b) (byteLen a + 1) = false := by
    rw [Vcard.isCharBoundary_append, FsTools.isCharBoundary]
    simp [Nat.not_le.mpr hc]
  rw [sliceStr, if_neg]
  simp [hboundary]

theorem findWhitespace_eq (body : List Char) : (∃ path c rest, body = path ++ c :: rest ∧ pathOf body = path ∧
    titleOf body = trim rest ∧ body.find? isWhitespace = some c ∧ findWhitespace body = some (byteLen path)) ∨
    (pathOf body = body ∧ titleOf body = [] ∧ body.find? isWhitespace = none ∧ findWhitespace body = none) := by
  by_cases hany : body.any isWhitespace = true
  · refine Or.inl ?_
    cases hdrop : body.dropWhile fun c => !isWhitespace c with
    | nil =>
      rw [List.dropWhile_eq_nil_iff] at hdrop
      obtain ⟨c, hc, hblank⟩ := List.any_eq_true.mp hany
      have hno := hdrop c hc
      simp [hblank] at hno
    | cons c rest =>
      have hbody : body = pathOf body ++ c :: rest := by
        rw [pathOf, ← hdrop, List.takeWhile_append_dropWhile]
      have hc : isWhitespace c = true := by
        have hhead := List.head?_dropWhile_not (fun c => !isWhitespace c) body
        rw [hdrop] at hhead
        simpa using hhead
      refine ⟨pathOf body, c, rest, hbody, rfl, by rw [titleOf, hdrop, List.tail_cons], ?_,
        by rw [findWhitespace, if_pos hany, pathOf]⟩
      have hpath : (pathOf body).find? isWhitespace = none := by
        rw [List.find?_eq_none]
        intro x hx
        simpa using List.mem_takeWhile_imp hx
      rw [hbody, List.find?_append, hpath, List.find?_cons_of_pos hc]
      rfl
  · have hplain : ∀ c ∈ body, (!isWhitespace c) = true := by
      simpa using hany
    refine Or.inr ⟨List.takeWhile_eq_self_iff.mpr hplain, ?_, ?_, by rw [findWhitespace, if_neg hany]⟩
    · rw [titleOf, List.dropWhile_eq_nil_iff.mpr hplain]
      rfl
    · rw [List.find?_eq_none]
      simpa using hplain

theorem pathOf_plain (body : List Char) : ∀ c ∈ pathOf body, isWhitespace c = false := by
  intro c hc
  simpa using List.mem_takeWhile_imp hc

/-- The path and the title are cut at the first white space, unless it is more than one byte long. -/
theorem splitBody_eq {body : List Char} (h : ¬ WideBlank body) : splitBody body = some (pathOf body, titleOf body) := by
  have hplain := pathOf_plain body
  obtain ⟨path, c, rest, rfl, hpath, htitle, hfind, hi⟩ | ⟨hpath, htitle, -, hi⟩ := findWhitespace_eq body
  · have hsize : c.utf8Size = 1 := by
      have hpos := c.utf8Size_pos
      have hone : ¬ 1 < c.utf8Size := fun hlt => h ⟨c, hfind, hlt⟩
      omega
    rw [hpath] at hplain ⊢
    simp only [splitBody, hi, sliceStr_front, sliceStr_after hsize, Option.bind_eq_bind, Option.bind_some, htitle]
    rw [Rust.trim_eq_self hplain]
  · simp only [splitBody, hi, htitle]
    rw [hpath] at hplain ⊢
    rw [Rust.trim_eq_self hplain]

theorem splitBody_none {body : List Char} (h : WideBlank body) : splitBody body = none := by
  obtain ⟨c, hc, hwide⟩ := h
  obtain ⟨path, d, rest, rfl, -, -, hfind, hi⟩ | ⟨-, -, hfind, -⟩ := findWhitespace_eq body
  · rw [Option.mem_def, hfind, Option.some_inj] at hc
    simp [splitBody, hi, sliceStr_inside (hc ▸ hwide)]
  · rw [Option.mem_def, hfind] at hc
    cases hc

theorem unquote_some (title : List Char) : ∃ inside, unquote title = some inside := by
  unfold unquote
  split
  · rename_i h
    have hquote : ∀ q : Char, q.utf8Size = 1 → quotedBy q title = true →
        ∃ inside, sliceStr title 1 (byteLen title - 1) = some inside := by
      intro q hq hby
      simp only [quotedBy, Bool.and_eq_true, decide_eq_true_eq] at hby
      obtain ⟨front, hfront⟩ := List.getLast?_eq_some_iff.mp hby.2
      cases front with
      | nil =>
        rw [hfront, List.nil_append, Vcard.byteLen_cons, hq] at h
        exact absurd h.1 (by decide)
      | cons d inside =>
        rw [hfront, List.cons_append, List.head?_cons, Option.some_inj] at hby
        refine ⟨inside, ?_⟩
        have hslice := sliceStr_eq [q] inside [q]
        have hone : byteLen [q] = 1 := by simp [byteLen, hq]
        have hlen : byteLen title - 1 = byteLen [q] + byteLen inside := by
          rw [hfront, hby.1, List.cons_append, Vcard.byteLen_cons, Rust.byteLen_append, hone, hq]
          omega
        rw [hlen, hfront, hby.1, ← hone]
        exact hslice
    obtain hby | hby := Bool.or_eq_true _ _ ▸ h.2
    · exact hquote '"' (by decide) hby
    · exact hquote '\'' (by decide) hby
  · exact ⟨title, rfl⟩

section
variable {F : Type} (fraction : List Char → Option F)

/-- The image of a reference. -/
theorem imageOf_eq {body : List Char} (h : ¬ WideBlank body) :
    ∃ inside, unquote (titleOf body) = some inside ∧ imageOf fraction body =
      some (if pathOf body = [] then none else some (pathOf body, parseImageOptionsFromTitle fraction inside)) := by
  obtain ⟨inside, hinside⟩ := unquote_some (titleOf body)
  refine ⟨inside, hinside, ?_⟩
  rw [imageOf, splitBody_eq h]
  by_cases hpath : pathOf body = []
  · simp [hpath]
  · simp [hpath, hinside]

theorem imageOf_none {body : List Char} (h : WideBlank body) : imageOf fraction body = none := by
  rw [imageOf, splitBody_none h]
  rfl

theorem imageLine_unique {line alt body alt' body' : List Char} (h : ImageLine line alt body)
    (h' : ImageLine line alt' body') : body = body' := by
  have hstep : ∀ {alt body : List Char}, ImageLine line alt body →
      ((trim line).drop 2).dropWhile (· ≠ ']') = ']' :: '(' :: (body ++ [')']) := by
    rintro alt body ⟨htrim, halt⟩
    have hplain : ∀ x ∈ alt, decide (x ≠ ']') = true := fun x hx => decide_eq_true fun heq => halt (heq ▸ hx)
    rw [htrim, List.drop_succ_cons, List.drop_succ_cons, List.drop_zero, List.dropWhile_append_of_pos hplain,
      List.dropWhile_cons_of_neg (by simp)]
  have heq := (hstep h).symm.trans (hstep h')
  simpa using heq

/-- An image line is read as its reference. -/
theorem parseStandaloneImageLine_image {line alt body : List Char} (h : ImageLine line alt body) :
    parseStandaloneImageLine fraction line = imageOf fraction body := by
  obtain ⟨htrim, halt⟩ := h
  have hplain : ∀ x ∈ alt, decide (x ≠ ']') = true := fun x hx => decide_eq_true fun heq => halt (heq ▸ hx)
  have hfind : findChar (alt ++ ']' :: '(' :: (body ++ [')'])) ']' = some (byteLen alt) := by
    rw [findChar, if_pos (by simp), List.takeWhile_append_of_pos hplain, List.takeWhile_cons_of_neg (by simp),
      List.append_nil]
  have hrfind : rfindChar (body ++ [')']) ')' = some (byteLen body) := by
    rw [rfindChar, if_pos (by simp)]
    simp
  have hclose : sliceStr (body ++ [')']) (byteLen body + 1) (byteLen (body ++ [')'])) = some [] := sliceStr_after (by decide)
  have hafter : sliceStr (alt ++ ']' :: '(' :: (body ++ [')'])) (byteLen alt + 1)
      (byteLen (alt ++ ']' :: '(' :: (body ++ [')']))) = some ('(' :: (body ++ [')'])) := sliceStr_after (by decide)
  have hstart : ['!', '['] <+: '!' :: '[' :: (alt ++ ']' :: '(' :: (body ++ [')'])) := by
    rw [List.cons_prefix_cons, List.cons_prefix_cons]
    exact ⟨rfl, rfl, List.nil_prefix⟩
  have hdrop : ('!' :: '[' :: (alt ++ ']' :: '(' :: (body ++ [')']))).drop 2 = alt ++ ']' :: '(' :: (body ++ [')']) := rfl
  have hnil : trim [] = [] := rfl
  simp only [parseStandaloneImageLine, htrim, if_pos hstart, hdrop, hfind, hafter, Option.bind_eq_bind, Option.bind_some]
  simp only [imageAfter, List.head?_cons, if_pos, List.tail_cons, hrfind, hclose, Option.bind_eq_bind, Option.bind_some,
    hnil, ne_eq, not_true_eq_false, if_false, sliceStr_front]

/-- Any other line is not cut at all, or where its characters end. -/
theorem parseStandaloneImageLine_other {line : List Char} (h : ∀ alt body, ¬ ImageLine line alt body) :
    parseStandaloneImageLine fraction line = some none := by
  unfold parseStandaloneImageLine
  dsimp only
  split
  · rename_i hstart
    obtain ⟨rest, hrest⟩ := hstart
    rw [← hrest, List.cons_append, List.cons_append, List.nil_append, List.drop_succ_cons, List.drop_succ_cons,
      List.drop_zero]
    by_cases hmem : ']' ∈ rest
    · have hcut := cut_at hmem
      have halt := not_mem_takeWhile ']' rest
      rw [findChar, if_pos hmem]
      generalize rest.takeWhile (· ≠ ']') = alt at hcut halt
      generalize (rest.dropWhile (· ≠ ']')).tail = afterAlt at hcut
      subst hcut
      simp only [sliceStr_after (show (']' : Char).utf8Size = 1 by decide), Option.bind_eq_bind, Option.bind_some]
      unfold imageAfter
      split
      · rename_i hopen
        obtain ⟨inside, rfl⟩ : ∃ inside, afterAlt = '(' :: inside := by
          cases afterAlt with
          | nil => cases hopen
          | cons c inside =>
            rw [List.head?_cons, Option.some_inj] at hopen
            exact ⟨inside, by rw [hopen]⟩
        rw [List.tail_cons]
        dsimp only
        by_cases hclose : ')' ∈ inside
        · obtain ⟨body, after, rfl, -, hbody⟩ := cut_at_last hclose
          rw [rfindChar, if_pos hclose, hbody]
          simp only [sliceStr_after (show (')' : Char).utf8Size = 1 by decide), Option.bind_eq_bind, Option.bind_some]
          rw [if_pos]
          intro hblank
          have hnil : after = [] := by
            refine List.eq_nil_of_length_eq_zero (Nat.eq_zero_of_not_pos fun hpos => ?_)
            obtain ⟨front, last, rfl⟩ := Vcard.snoc_of_ne_nil (List.length_pos_iff.mp hpos)
            have hlast : isWhitespace last = false := by
              refine @trim_last line ('!' :: '[' :: (alt ++ ']' :: '(' :: (body ++ ')' :: front))) last ?_
              rw [← hrest]
              simp
            have hws := isWhitespace_of_trim_nil hblank last (by simp)
            rw [hlast] at hws
            cases hws
          exact h alt body ⟨by rw [← hrest, hnil]; rfl, halt⟩
        · rw [rfindChar, if_neg hclose]
      · rfl
    · rw [findChar, if_neg hmem]
  · rfl

theorem parseStandaloneImageLine_cases (line : List Char) :
    (∃ alt body, ImageLine line alt body ∧ WideBlank body ∧ parseStandaloneImageLine fraction line = none) ∨
    (∃ alt body title, ImageLine line alt body ∧ ¬ WideBlank body ∧ pathOf body ≠ [] ∧
      unquote (titleOf body) = some title ∧
      parseStandaloneImageLine fraction line = some (some (pathOf body, parseImageOptionsFromTitle fraction title))) ∨
    ((∀ alt body, ImageLine line alt body → ¬ WideBlank body ∧ pathOf body = []) ∧
      parseStandaloneImageLine fraction line = some none) := by
  by_cases himage : ∃ alt body, ImageLine line alt body
  · obtain ⟨alt, body, himage⟩ := himage
    by_cases hwide : WideBlank body
    · exact Or.inl ⟨alt, body, himage, hwide, by
        rw [parseStandaloneImageLine_image fraction himage, imageOf_none fraction hwide]⟩
    · obtain ⟨title, htitle, hof⟩ := imageOf_eq fraction hwide
      rw [← parseStandaloneImageLine_image fraction himage] at hof
      by_cases hpath : pathOf body = []
      · rw [if_pos hpath] at hof
        refine Or.inr (Or.inr ⟨fun alt' body' h' => ?_, hof⟩)
        rw [imageLine_unique h' himage]
        exact ⟨hwide, hpath⟩
      · rw [if_neg hpath] at hof
        exact Or.inr (Or.inl ⟨alt, body, title, himage, hwide, hpath, htitle, hof⟩)
  · refine Or.inr (Or.inr ⟨fun alt body h => absurd ⟨alt, body, h⟩ himage, ?_⟩)
    exact parseStandaloneImageLine_other fraction fun alt body h => himage ⟨alt, body, h⟩

/-! ## The account of a document -/

/-- Each line, in order, is the text of a block, the one image reference of a block, or a row of one table. -/
inductive Accounts : List (List Char) → List (DocumentBlock F) → Prop where
  | nil : Accounts [] []
  | line {text : List Char} {lines : List (List Char)} {blocks : List (DocumentBlock F)} : Accounts lines blocks →
      Accounts (text :: lines) (.line text :: blocks)
  | image {line alt body title : List Char} {lines : List (List Char)} {blocks : List (DocumentBlock F)} :
      ImageLine line alt body → OneReference body → pathOf body ≠ [] → unquote (titleOf body) = some title →
      Accounts lines blocks →
      Accounts (line :: lines) (.image (pathOf body) (parseImageOptionsFromTitle fraction title) :: blocks)
  | table {header rule : List Char} {rows lines : List (List Char)} {blocks : List (DocumentBlock F)} :
      isTableRow header = true → isTableSeparator rule = true → (∀ row ∈ rows, isTableRow row = true) →
      (∀ line ∈ lines.head?, isTableRow line = false) → Accounts lines blocks →
      Accounts (header :: rule :: (rows ++ lines))
        (.monoBlock (formatTableAsMonoblock (parseTableRow header) (rows.map parseTableRow)) :: blocks)

/-- The blocks of some lines account for them. -/
def Accounted (lines : List (List Char)) : Prop :=
  ∃ blocks, preprocessLines fraction lines = some blocks ∧ Accounts fraction lines blocks

/-- The blocks account for the lines, and what a line shows for its characters. -/
def Kept (lines : List (List Char)) : Prop :=
  Accounted fraction lines ∧
    ∀ line ∈ lines, ∃ tokens, Tokens line tokens ∧ stripInlineMarkdown line = tokens.flatMap Token.shown

/-- An image line that is cut inside a character, or that holds more than one reference. -/
def Slips (line : List Char) : Prop :=
  ∃ alt body, ImageLine line alt body ∧ (WideBlank body ∨ (pathOf body ≠ [] ∧ ¬ OneReference body))

theorem slips_iff {line alt body : List Char} (h : ImageLine line alt body) :
    Slips line ↔ WideBlank body ∨ (pathOf body ≠ [] ∧ ¬ OneReference body) := by
  constructor
  · rintro ⟨alt', body', h', hslips⟩
    rwa [imageLine_unique h' h] at hslips
  · exact fun hslips => ⟨alt, body, h, hslips⟩

/-- A line of a table is no image. -/
theorem not_slips_of_bar {line : List Char} (h : (trim line).head? = some '|') : ¬ Slips line := by
  rintro ⟨alt, body, ⟨htrim, -⟩, -⟩
  rw [htrim, List.head?_cons, Option.some_inj] at h
  cases h

theorem not_slips_row {line : List Char} (h : isTableRow line = true) : ¬ Slips line := by
  refine not_slips_of_bar ?_
  simp only [isTableRow, Bool.and_eq_true, decide_eq_true_eq] at h
  simpa using h.1.1

theorem not_slips_separator {line : List Char} (h : isTableSeparator line = true) : ¬ Slips line := by
  refine not_slips_of_bar ?_
  simp only [isTableSeparator] at h
  split at h
  · cases h
  · rename_i hbars
    exact not_not.mp fun hno => hbars (Or.inl hno)

theorem not_slips_line {line : List Char} (h : parseStandaloneImageLine fraction line = some none) : ¬ Slips line := by
  obtain ⟨alt, body, -, -, hparse⟩ | ⟨alt, body, title, -, -, -, -, hparse⟩ | ⟨hnone, -⟩ :=
    parseStandaloneImageLine_cases fraction line
  · rw [h] at hparse
    cases hparse
  · rw [h] at hparse
    cases hparse
  · rintro ⟨alt, body, himage, hwide | ⟨hpath, -⟩⟩
    · exact (hnone alt body himage).1 hwide
    · exact hpath (hnone alt body himage).2

theorem rows_cut {p : List Char → Bool} {rows lines : List (List Char)} (hrows : ∀ row ∈ rows, p row = true)
    (hlines : ∀ line ∈ lines.head?, p line = false) :
    (rows ++ lines).takeWhile p = rows ∧ (rows ++ lines).dropWhile p = lines := by
  rw [List.takeWhile_append_of_pos hrows, List.dropWhile_append_of_pos hrows]
  cases lines with
  | nil => simp
  | cons line lines =>
    have hline : ¬ p line = true := by simpa using hlines line rfl
    rw [List.takeWhile_cons_of_neg hline, List.dropWhile_cons_of_neg hline, List.append_nil]
    exact ⟨rfl, rfl⟩

theorem accounted_line {line : List Char} {rest : List (List Char)}
    (hparse : parseStandaloneImageLine fraction line = some none) (htable : ¬ tableAt line rest = true) :
    Accounted fraction (line :: rest) ↔ Accounted fraction rest := by
  have hstep : preprocessLines fraction (line :: rest) = (preprocessLines fraction rest).map (.line line :: ·) := by
    rw [preprocessLines, hparse]
    dsimp only
    rw [if_neg htable]
  rw [Accounted, hstep]
  constructor
  · rintro ⟨blocks, hblocks, hacc⟩
    obtain ⟨blocks, hrest, rfl⟩ := Option.map_eq_some_iff.mp hblocks
    cases hacc with
    | line h => exact ⟨blocks, hrest, h⟩
  · rintro ⟨blocks, hrest, hacc⟩
    exact ⟨_, by rw [hrest]; rfl, .line hacc⟩

theorem accounted_table {line rule : List Char} {rest : List (List Char)}
    (hparse : parseStandaloneImageLine fraction line = some none) (hline : isTableRow line = true)
    (hrule : isTableSeparator rule = true) :
    Accounted fraction (line :: rule :: rest) ↔ Accounted fraction (rest.dropWhile isTableRow) := by
  have hat : tableAt line (rule :: rest) = true := by simp [tableAt, hline, hrule]
  have hstep : preprocessLines fraction (line :: rule :: rest) =
      (preprocessLines fraction (rest.dropWhile isTableRow)).map (.monoBlock (formatTableAsMonoblock (parseTableRow line)
        ((rest.takeWhile isTableRow).map parseTableRow)) :: ·) := by
    rw [preprocessLines, hparse]
    dsimp only
    rw [if_pos hat, List.tail_cons]
  rw [Accounted, hstep]
  constructor
  · rintro ⟨blocks, hblocks, hacc⟩
    obtain ⟨blocks, hrest, hcons⟩ := Option.map_eq_some_iff.mp hblocks
    subst hcons
    generalize hmono : @DocumentBlock.monoBlock F _ = mono at hacc
    cases hacc with
    | line h => cases hmono
    | image h => cases hmono
    | @table _ _ rows lines _ _ _ hrows hlines h =>
      rw [(rows_cut hrows hlines).2] at hrest ⊢
      exact ⟨blocks, hrest, h⟩
  · rintro ⟨blocks, hrest, hacc⟩
    refine ⟨_, by rw [hrest]; rfl, ?_⟩
    have hrows : ∀ row ∈ rest.takeWhile isTableRow, isTableRow row = true := fun row hrow => List.mem_takeWhile_imp hrow
    have hlines : ∀ l ∈ (rest.dropWhile isTableRow).head?, isTableRow l = false := by
      intro l hl
      have hhead := List.head?_dropWhile_not isTableRow rest
      rw [Option.mem_def.mp hl] at hhead
      simpa using hhead
    have htable := @Accounts.table F fraction _ _ _ _ _ hline hrule hrows hlines hacc
    rwa [List.takeWhile_append_dropWhile] at htable

theorem accounted_image {line alt body title : List Char} {rest : List (List Char)} (himage : ImageLine line alt body)
    (hpath : pathOf body ≠ []) (htitle : unquote (titleOf body) = some title)
    (hparse : parseStandaloneImageLine fraction line =
      some (some (pathOf body, parseImageOptionsFromTitle fraction title))) :
    Accounted fraction (line :: rest) ↔ OneReference body ∧ Accounted fraction rest := by
  have hstep : preprocessLines fraction (line :: rest) = (preprocessLines fraction rest).map
      (.image (pathOf body) (parseImageOptionsFromTitle fraction title) :: ·) := by
    rw [preprocessLines, hparse]
  rw [Accounted, hstep]
  constructor
  · rintro ⟨blocks, hblocks, hacc⟩
    obtain ⟨blocks, hrest, hcons⟩ := Option.map_eq_some_iff.mp hblocks
    subst hcons
    generalize hblock : @DocumentBlock.image F _ _ = block at hacc
    cases hacc with
    | line h => cases hblock
    | image h hone _ _ hrec => exact ⟨imageLine_unique h himage ▸ hone, blocks, hrest, hrec⟩
    | table _ _ _ _ _ => cases hblock
  · rintro ⟨hone, blocks, hrest, hacc⟩
    exact ⟨_, by rw [hrest]; rfl, .image himage hone hpath htitle hacc⟩

theorem accounted_iff (lines : List (List Char)) : Accounted fraction lines ↔ ∀ line ∈ lines, ¬ Slips line := by
  induction lines using preprocessLines.induct fraction with
  | case1 =>
    refine ⟨fun _ => List.forall_mem_nil _, fun _ => ⟨[], ?_, .nil⟩⟩
    rw [preprocessLines]
  | case2 line rest hnone =>
    obtain ⟨alt, body, himage, hwide, -⟩ | ⟨_, _, _, -, -, -, -, hparse⟩ | ⟨-, hparse⟩ :=
      parseStandaloneImageLine_cases fraction line
    · constructor
      · rintro ⟨blocks, hblocks, -⟩
        rw [preprocessLines, hnone] at hblocks
        cases hblocks
      · exact fun h => absurd ⟨alt, body, himage, Or.inl hwide⟩ (h line List.mem_cons_self)
    · rw [hnone] at hparse
      cases hparse
    · rw [hnone] at hparse
      cases hparse
  | case3 line rest path options hsome ih =>
    obtain ⟨_, _, -, -, hparse⟩ | ⟨alt, body, title, himage, hwide, hpath, htitle, hparse⟩ | ⟨-, hparse⟩ :=
      parseStandaloneImageLine_cases fraction line
    · rw [hsome] at hparse
      cases hparse
    · rw [accounted_image fraction himage hpath htitle hparse, ih, List.forall_mem_cons, slips_iff himage]
      simp [hwide, hpath]
    · rw [hsome] at hparse
      cases hparse
  | case4 line rest hparse htable ih =>
    simp only [tableAt, Bool.and_eq_true] at htable
    obtain ⟨hline, hrule⟩ := htable
    cases rest with
    | nil => cases hrule
    | cons rule rest =>
      have hrule : isTableSeparator rule = true := hrule
      rw [List.tail_cons] at ih
      rw [accounted_table fraction hparse hline hrule, ih, List.forall_mem_cons, List.forall_mem_cons]
      conv_rhs => rw [← @List.takeWhile_append_dropWhile _ isTableRow rest, List.forall_mem_append]
      have hrows : ∀ row ∈ rest.takeWhile isTableRow, ¬ Slips row := fun row hrow =>
        not_slips_row (List.mem_takeWhile_imp hrow)
      exact ⟨fun h => ⟨not_slips_row hline, not_slips_separator hrule, hrows, h⟩, fun h => h.2.2.2⟩
  | case5 line rest hparse htable ih =>
    rw [accounted_line fraction hparse htable, ih, List.forall_mem_cons]
    exact ⟨fun h => ⟨not_slips_line fraction hparse, h⟩, fun h => h.2⟩

/-- No text of a document is lost unless an image line is cut inside a character or holds more than its reference. -/
theorem kept_iff (lines : List (List Char)) : Kept fraction lines ↔ ∀ line ∈ lines, ¬ Slips line := by
  rw [Kept, accounted_iff]
  exact ⟨fun h => h.1, fun h => ⟨h, fun line _ => parseInlineMarkdown_tokens line⟩⟩

end

/-- A path and a title parted by a wide blank. -/
def wideImage : List Char :=
  ['!', '[', 'a', ']', '(', 'b', '.', 'p', 'n', 'g', '\u3000', '"', 't', '"', ')']

/-- An image in front of a text that ends in a parenthesis. -/
def notedImage : List Char :=
  ['!', '[', 'a', ']', '(', 'b', '.', 'p', 'n', 'g', ')', ' ', 's', 'e', 'e', ' ', '(', '1', ')']

/-- A wide blank ends in a slice inside a character, and a text after an image is lost. -/
theorem kept_fails : (∀ (F : Type) (fraction : List Char → Option F), ¬ Kept fraction [wideImage]) ∧
    ∀ (F : Type) (fraction : List Char → Option F), ¬ Kept fraction [notedImage] := by
  constructor
  · intro F fraction
    rw [kept_iff]
    intro h
    refine h wideImage (by simp) ⟨['a'], ['b', '.', 'p', 'n', 'g', '\u3000', '"', 't', '"'], ?_, Or.inl ?_⟩
    · exact ⟨by decide +kernel, by simp⟩
    · exact ⟨'\u3000', by decide +kernel, by decide +kernel⟩
  · intro F fraction
    rw [kept_iff]
    intro h
    refine h notedImage (by simp) ⟨['a'], ['b', '.', 'p', 'n', 'g', ')', ' ', 's', 'e', 'e', ' ', '(', '1'], ?_, Or.inr ⟨?_, ?_⟩⟩
    · exact ⟨by decide +kernel, by simp⟩
    · decide +kernel
    · rintro ⟨hopen, -⟩
      revert hopen
      decide +kernel

end Haruspex.Documents
