import Haruspex.Library.LineEndings
import Haruspex.Library.Marks
import Haruspex.Library.Patterns
import Haruspex.Rust.Text

/-! Find and replace in a file (`fs_tools/fuzzy.rs`). -/
namespace Haruspex.FsTools
open LineEndings Marks Patterns
set_option autoImplicit false

structure EditResult where
  /-- From 1 on. -/
  firstChangedLine : ℕ
  lineBefore : List Char
  lineAfter : List Char
  usedFuzzy : Bool

structure EditOutcome where
  newContent : List Char
  result : EditResult

/-! ## Texts -/

/-- CRLF and lone CR as LF. -/
def normalizeToLf (s : List Char) : List Char := toLf s

def bom : Char := '\uFEFF'

/-- Whether there was a BOM, and the rest. -/
def stripBom : List Char → Bool × List Char
  | [] => (false, [])
  | c :: rest => if c = bom then (true, rest) else (false, c :: rest)

def foldChar (c : Char) : Char :=
  let n := c.toNat
  if 0x2018 ≤ n ∧ n ≤ 0x201B then '\''
  else if 0x201C ≤ n ∧ n ≤ 0x201F then '"'
  else if 0x2010 ≤ n ∧ n ≤ 0x2015 ∨ n = 0x2212 then '-'
  else if n = 0xA0 ∨ 0x2002 ≤ n ∧ n ≤ 0x200A ∨ n = 0x202F ∨ n = 0x205F ∨ n = 0x3000 then ' '
  else c

def trimEnd (cs : List Char) : List Char := (cs.reverse.dropWhile Rust.isWhitespace).reverse

/-- Non-overlapping occurrences of a word that is not empty. -/
def wordPattern (word : List Char) (hword : word ≠ []) : Pattern Char Unit where
  match? := fun text => if word <+: text then some ((), text.drop word.length) else none
  shorter := by
    intro text found rest h
    split at h
    · cases h
      have hpos := List.length_pos_iff.mpr hword
      have hle := List.IsPrefix.length_le ‹word <+: text›
      rw [List.length_drop]
      omega
    · cases h

/-- `text.matches(word).count()` -/
def matchCount (word text : List Char) : ℕ :=
  if hword : word = [] then text.length + 1 else ((wordPattern word hword).all text).length

/-- `text.replacen(word, with, 1)` -/
def replaceFirst (word replacement text : List Char) : List Char :=
  match cut word text with
  | some (before, after) => before ++ replacement ++ after
  | none => text

/-- `split('\n')` -/
def splitLines (text : List Char) : List (List Char) := text.splitOn '\n'

-- NFKC
variable (nfkc : List Char → List Char)

def normalizeForFuzzyLine (line : List Char) : List Char := (trimEnd (nfkc line)).map foldChar

/-! ## The fuzzy pass -/

def windowStarts (contentNorm oldNorm : List (List Char)) : List ℕ :=
  (List.range (contentNorm.length - oldNorm.length + 1)).filter
    (fun start => (contentNorm.drop start).take oldNorm.length = oldNorm)

def notFound (path : String) : String :=
  "old_str not found in " ++ path ++ ". The text doesn't match the file even allowing for " ++
    "whitespace/quote differences — re-read the file and copy the exact lines you want to change."

def fuzzyApply (content old new : List Char) (path : String) : Except String (List Char × EditResult) :=
  let contentLines := splitLines content
  let oldLines := splitLines old
  let contentNorm := contentLines.map (normalizeForFuzzyLine nfkc)
  let oldNorm := oldLines.map (normalizeForFuzzyLine nfkc)
  let win := oldNorm.length
  if win = 0 ∨ contentNorm.length < win then .error (notFound path)
  else
    match windowStarts contentNorm oldNorm with
    | [] => .error (notFound path)
    | [i] =>
      let newLines := splitLines new
      .ok (joinLines (contentLines.take i ++ newLines ++ contentLines.drop (i + win)),
        { firstChangedLine := i + 1
          lineBefore := contentLines.getD i []
          lineAfter := newLines.headD []
          usedFuzzy := true })
    | starts =>
      .error ("old_str matches " ++ toString starts.length ++ " places in " ++ path ++
        " (allowing for whitespace/quote differences). It must be unique — include more " ++
        "surrounding context.")

/-! ## The edit -/

def exactApply (content old new : List Char) : List Char × EditResult :=
  let before := ((cut old content).map Prod.fst).getD []
  let firstChangedLine := before.count '\n' + 1
  (replaceFirst old new content,
    { firstChangedLine
      lineBefore := (splitLines content).getD (firstChangedLine - 1) []
      lineAfter := (splitLines new).headD []
      usedFuzzy := false })

/-- The edit of a text with LF endings, by the exact pass or the fuzzy one. -/
def editLf (content old new : List Char) (path : String) : Except String (List Char × EditResult) :=
  let occurrences := matchCount old content
  if occurrences > 1 then
    .error ("old_str appears " ++ toString occurrences ++ " times in " ++ path ++
      ". It must be unique — include more surrounding context.")
  else if occurrences = 1 then .ok (exactApply content old new)
  else fuzzyApply nfkc content old new path

/-- The text in the endings that the file has. -/
def restoreEndings (crlf : Bool) (text : List Char) : List Char := if crlf then toCrlf text else text

def bomOf (hadBom : Bool) : List Char := if hadBom then [bom] else []

def applyEdit (raw oldStr newStr : List Char) (path : String) : Except String EditOutcome :=
  let (hadBom, body) := stripBom raw
  let wasCrlf : Bool := ['\r', '\n'] <:+: body
  let content := normalizeToLf body
  let old := normalizeToLf oldStr
  let new := normalizeToLf newStr
  if old = [] then .error "old_str must not be empty."
  else
    match editLf nfkc content old new path with
    | .error e => .error e
    | .ok (newContent, result) =>
      if newContent = content then
        .error ("The replacement leaves " ++ path ++
          " unchanged (old_str and new_str are equivalent). No edit performed.")
      else .ok { newContent := bomOf hadBom ++ restoreEndings wasCrlf newContent, result }

end Haruspex.FsTools
