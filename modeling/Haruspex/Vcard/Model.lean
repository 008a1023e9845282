import Haruspex.FsTools.TextRead
import Haruspex.Rust.Utf8
import Haruspex.Rust.Net
import Haruspex.Library.LineEndings

/-! Contacts from vCard documents (`integrations/dav/vcard.rs`). Texts are lists of characters; an operation that
panics in Rust is `none`. -/
namespace Haruspex.Vcard
open FsTools (isCharBoundary takeBytes lines)
open LineEndings (joinCrlf)
open Rust (trim byteLen utf8 fromUtf8Lossy hexDigit)
set_option autoImplicit false

/-! ## Strings -/

/-- The text from a boundary on. -/
def dropBytes : List Char → ℕ → List Char
  | cs, 0 => cs
  | [], _ + 1 => []
  | c :: cs, n + 1 => dropBytes cs (n + 1 - c.utf8Size)

/-- `&text[start..stop]` -/
def sliceStr (cs : List Char) (start stop : ℕ) : Option (List Char) :=
  if start ≤ stop ∧ isCharBoundary cs start = true ∧ isCharBoundary cs stop = true then
    some (takeBytes (dropBytes cs start) (stop - start))
  else none

def upper (cs : List Char) : List Char := cs.map Char.toUpper

def lower (cs : List Char) : List Char := cs.map Char.toLower

/-- `eq_ignore_ascii_case` -/
def sameWord (a : List Char) (b : String) : Bool := lower a = lower b.toList

/-- `split_once` -/
def splitOnce (c : Char) (cs : List Char) : Option (List Char × List Char) :=
  match cs.dropWhile (· ≠ c) with
  | [] => none
  | _ :: rest => some (cs.takeWhile (· ≠ c), rest)

/-- `trim_matches` -/
def trimMatches (c : Char) (cs : List Char) : List Char :=
  ((cs.dropWhile (· = c)).reverse.dropWhile (· = c)).reverse

/-- `last_mut().expect(..)`, and a change of what is there. -/
def onLast (parts : List (List Char)) (change : List Char → List Char) : Option (List (List Char)) :=
  parts.getLast?.map fun last => parts.dropLast ++ [change last]

/-! ## Cards -/

def IsBegin (line : List Char) : Bool := sameWord (trim line) "BEGIN:VCARD"

def IsEnd (line : List Char) : Bool := sameWord (trim line) "END:VCARD"

/-- The loop over the lines, with the cards so far and the one that is open. -/
def cardLoop : List (List Char) → List (List Char) → Option (List Char) → List (List Char)
  | [], cards, current => cards ++ current.toList
  | line :: lines, cards, current =>
    if IsBegin line then cardLoop lines (cards ++ current.toList) (some [])
    else if IsEnd line then cardLoop lines (cards ++ current.toList) none
    else cardLoop lines cards (current.map fun card => card ++ line ++ ['\n'])

def splitCards (vcf : List Char) : List (List Char) := cardLoop (lines vcf) [] none

/-! ## Content lines -/

structure Line where
  name : List Char
  /-- Each key with its values; a bare parameter has none. -/
  params : List (List Char × List (List Char))
  value : List Char
  deriving DecidableEq

def Line.typeWords (line : Line) : List (List Char) :=
  (line.params.flatMap fun p =>
    if sameWord p.1 "TYPE" then p.2 else if p.2 = [] then [p.1] else []).map fun w => lower (trim w)

def Line.hasParamWord (line : Line) (key word : String) : Bool :=
  line.params.any fun p =>
    (sameWord p.1 key && p.2.any fun v => sameWord v word) || (p.2.isEmpty && sameWord p.1 word)

/-- `line.find(':')`, as a byte index. -/
def findColon (line : List Char) : Option ℕ :=
  if ':' ∈ line then some (byteLen (line.takeWhile (· ≠ ':'))) else none

def looksQuotedPrintable (line : List Char) : Option Bool := do
  let head ← match findColon line with
    | some i => sliceStr line 0 i
    | none => some line
  some (decide ("QUOTED-PRINTABLE".toList <:+: upper head))

/-- Whether the last line ends in a soft line break. -/
def continuesQp (out : List (List Char)) : Option Bool :=
  match out.getLast? with
  | none => some false
  | some prev => if prev.getLast? = some '=' then looksQuotedPrintable prev else some false

/-- The loop over the lines as they stand, with those that are joined. -/
def unfoldStep (out : List (List Char)) (raw : List Char) : Option (List (List Char)) := do
  let isFolded := raw.head? = some ' ' ∨ raw.head? = some '\t'
  let continues ← continuesQp out
  if isFolded ∧ out ≠ [] then do
    let rest ← sliceStr raw 1 (byteLen raw)
    onLast out (· ++ rest)
  else if continues = true ∧ out ≠ [] then onLast out (·.dropLast ++ raw)
  else if trim raw = [] then some out
  else some (out ++ [raw])

def unfold (card : List Char) : Option (List (List Char)) :=
  ((joinCrlf card).splitOn '\n').foldlM unfoldStep []

/-- The loop over the characters and their places, outside quotes and inside. -/
def splitLoop (line : List Char) : List Char → ℕ → Bool → Option (Option (List Char × List Char))
  | [], _, _ => some none
  | c :: cs, i, quoted =>
    if c = '"' then splitLoop line cs (i + c.utf8Size) (!quoted)
    else if c = ':' ∧ quoted = false then do
      let head ← sliceStr line 0 i
      let value ← sliceStr line (i + 1) (byteLen line)
      some (some (head, value))
    else splitLoop line cs (i + c.utf8Size) quoted

/-- The colon that ends the parameters is the first outside quotes. -/
def splitAtValue (line : List Char) : Option (Option (List Char × List Char)) := splitLoop line line 0 false

def paramLoop : List Char → List (List Char) → Bool → Option (List (List Char))
  | [], out, _ => some out
  | c :: cs, out, quoted =>
    if c = '"' then (onLast out (· ++ [c])).bind fun out => paramLoop cs out (!quoted)
    else if c = ';' ∧ quoted = false then paramLoop cs (out ++ [[]]) quoted
    else (onLast out (· ++ [c])).bind fun out => paramLoop cs out quoted

def splitParams (head : List Char) : Option (List (List Char)) := paramLoop head [[]] false

/-- A parameter: a key and its values, or a bare word. -/
def parseParam (p : List Char) : List Char × List (List Char) :=
  match splitOnce '=' p with
  | some (key, values) =>
    (trim key, ((values.splitOn ',').map fun v => trimMatches '"' (trim v)).filter (· ≠ []))
  | none => (trim p, [])

/-- What follows the last dot: a group before it means nothing. -/
def withoutGroup (name : List Char) : List Char := ((name.splitOn '.').getLast?).getD name

/-- A line without a colon or without a name is left out. -/
def parseLine (line : List Char) : Option (Option Line) := do
  match ← splitAtValue line with
  | none => some none
  | some (head, value) => do
    match ← splitParams head with
    | [] => none
    | first :: parts =>
      if trim first = [] then some none
      else
        some (some {
          name := withoutGroup (trim first)
          params := (parts.filter fun p => trim p ≠ []).map parseParam
          value })

def readLines (card : List Char) : Option (List Line) := do
  let joined ← unfold card
  let parsed ← joined.mapM parseLine
  some (parsed.filterMap id)

/-! ## Values -/

/-- `u8::from_str_radix(hex, 16)` -/
def fromHex (hex : List Char) : Option UInt8 :=
  let digits := if hex.head? = some '+' then hex.tail else hex
  if digits = [] then none
  else
    (digits.foldlM (fun n c => (hexDigit c).map fun d => n * 16 + d) 0).bind fun n =>
      if n < 256 then some (UInt8.ofNat n) else none

/-- The loop over the bytes, from `i` on; an escape is sliced out of the text. -/
def decodeFrom (value : List Char) (i : ℕ) : Option (List UInt8) :=
  if i < (utf8 value).length then
    let byte := (utf8 value).getD i 0
    if byte = 0x3D ∧ i + 2 < (utf8 value).length then
      match sliceStr value (i + 1) (i + 3) with
      | none => none
      | some hex =>
        match fromHex hex with
        | some decoded => (decodeFrom value (i + 3)).map (decoded :: ·)
        | none => (decodeFrom value (i + 1)).map (byte :: ·)
    else (decodeFrom value (i + 1)).map (byte :: ·)
  else some []
termination_by (utf8 value).length - i

def decodeQuotedPrintable (value : List Char) : Option (List Char) :=
  (decodeFrom value 0).map fun out => (fromUtf8Lossy out).toList

def decodeValue (line : Line) : Option (List Char) :=
  if line.hasParamWord "ENCODING" "QUOTED-PRINTABLE" then decodeQuotedPrintable line.value
  else some line.value

def unescape : List Char → List Char
  | [] => []
  | '\\' :: c :: cs => (if c = 'n' ∨ c = 'N' then '\n' else c) :: unescape cs
  | ['\\'] => ['\\']
  | c :: cs => c :: unescape cs

def structuredLoop : List Char → List (List Char) → Bool → Option (List (List Char))
  | [], out, _ => some out
  | c :: cs, out, true => (onLast out (· ++ ['\\', c])).bind fun out => structuredLoop cs out false
  | c :: cs, out, false =>
    if c = '\\' then structuredLoop cs out true
    else if c = ';' then structuredLoop cs (out ++ [[]]) false
    else (onLast out (· ++ [c])).bind fun out => structuredLoop cs out false

/-- A structured value at each `;` that is not escaped. -/
def splitStructured (value : List Char) : Option (List (List Char)) := structuredLoop value [[]] false

end Haruspex.Vcard
