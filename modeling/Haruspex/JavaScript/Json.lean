import Haruspex.JavaScript.Text

/-! `JSON.stringify` and `JSON.parse`. A number is its literal, since nothing here computes with
one. -/
namespace Haruspex.JavaScript
set_option autoImplicit false

inductive Json where
  | null
  | bool (value : Bool)
  | number (literal : String)
  | string (value : String)
  | array (items : List Json)
  | object (fields : List (String × Json))

namespace Json

/-! ## Writing -/

def hexDigit (n : ℕ) : Char := Nat.digitChar n

def escapeChar (c : Char) : List Char :=
  match c with
  | '"' => ['\\', '"']
  | '\\' => ['\\', '\\']
  | '\n' => ['\\', 'n']
  | '\r' => ['\\', 'r']
  | '\t' => ['\\', 't']
  | '\x08' => ['\\', 'b']
  | '\x0C' => ['\\', 'f']
  | c =>
    if c.toNat < 0x20 then ['\\', 'u', '0', '0', hexDigit (c.toNat / 16), hexDigit (c.toNat % 16)]
    else [c]

def quote (text : String) : String := "\"" ++ String.ofList (text.toList.flatMap escapeChar) ++ "\""

mutual

def stringify : Json → String
  | .null => "null"
  | .bool value => toString value
  | .number literal => literal
  | .string value => quote value
  | .array items => "[" ++ stringifyItems items ++ "]"
  | .object fields => "\x7b" ++ stringifyFields fields ++ "\x7d"

def stringifyItems : List Json → String
  | [] => ""
  | [item] => stringify item
  | item :: items => stringify item ++ "," ++ stringifyItems items

def stringifyFields : List (String × Json) → String
  | [] => ""
  | [(key, value)] => quote key ++ ":" ++ stringify value
  | (key, value) :: fields => quote key ++ ":" ++ stringify value ++ "," ++ stringifyFields fields

end

/-! ## Reading -/

def skipSpace (cs : List Char) : List Char :=
  cs.dropWhile (fun c => c = ' ' ∨ c = '\t' ∨ c = '\n' ∨ c = '\r')

def hexValue (c : Char) : Option ℕ :=
  if c.isDigit then some (c.toNat - '0'.toNat)
  else if 'a' ≤ c ∧ c ≤ 'f' then some (c.toNat - 'a'.toNat + 10)
  else if 'A' ≤ c ∧ c ≤ 'F' then some (c.toNat - 'A'.toNat + 10)
  else none

def unescape : Char → Option ℕ
  | '"' => some '"'.toNat
  | '\\' => some '\\'.toNat
  | '/' => some '/'.toNat
  | 'b' => some 0x08
  | 'f' => some 0x0C
  | 'n' => some '\n'.toNat
  | 'r' => some '\r'.toNat
  | 't' => some '\t'.toNat
  | _ => none

/-- A string after its opening quote, in UTF-16 units, and what follows it. -/
def parseUnits : List Char → Option (List ℕ × List Char)
  | [] => none
  | '"' :: cs => some ([], cs)
  | '\\' :: 'u' :: a :: b :: c :: d :: cs => do
    let a ← hexValue a
    let b ← hexValue b
    let c ← hexValue c
    let d ← hexValue d
    let (units, rest) ← parseUnits cs
    return ((((a * 16 + b) * 16 + c) * 16 + d) :: units, rest)
  | '\\' :: c :: cs => do
    let unit ← unescape c
    let (units, rest) ← parseUnits cs
    return (unit :: units, rest)
  | c :: cs => do
    let (units, rest) ← parseUnits cs
    if c.toNat < 0x20 then none else return (toUnits [c] ++ units, rest)

def parseString (cs : List Char) : Option (String × List Char) :=
  (parseUnits cs).map (fun (units, rest) => (String.ofList (ofUnits units), rest))

/-- The digits after a `.` or an exponent: at least one. -/
def parseDigits (cs : List Char) : Option (List Char × List Char) :=
  let (digits, rest) := cs.span Char.isDigit
  if digits = [] then none else some (digits, rest)

def parseFraction : List Char → Option (List Char × List Char)
  | '.' :: cs => (parseDigits cs).map (fun (digits, rest) => ('.' :: digits, rest))
  | cs => some ([], cs)

def parseExponent : List Char → Option (List Char × List Char)
  | e :: sign :: cs =>
    if e = 'e' ∨ e = 'E' then
      if sign = '+' ∨ sign = '-' then
        (parseDigits cs).map (fun (digits, rest) => (e :: sign :: digits, rest))
      else (parseDigits (sign :: cs)).map (fun (digits, rest) => (e :: digits, rest))
    else some ([], e :: sign :: cs)
  | [e] => if e = 'e' ∨ e = 'E' then none else some ([], [e])
  | [] => some ([], [])

def parseNumber (cs : List Char) : Option (Json × List Char) := do
  let (sign, cs) := match cs with
    | '-' :: cs => (['-'], cs)
    | cs => ([], cs)
  let (whole, cs) ← parseDigits cs
  if whole.head? = some '0' ∧ whole.length ≠ 1 then none
  let (fraction, cs) ← parseFraction cs
  let (exponent, cs) ← parseExponent cs
  return (.number (String.ofList (sign ++ whole ++ fraction ++ exponent)), cs)

mutual

def parseValue : ℕ → List Char → Option (Json × List Char)
  | 0, _ => none
  | depth + 1, cs =>
    match skipSpace cs with
    | 'n' :: 'u' :: 'l' :: 'l' :: cs => some (.null, cs)
    | 't' :: 'r' :: 'u' :: 'e' :: cs => some (.bool true, cs)
    | 'f' :: 'a' :: 'l' :: 's' :: 'e' :: cs => some (.bool false, cs)
    | '"' :: cs => (parseString cs).map (fun (value, rest) => (.string value, rest))
    | '[' :: cs =>
      match skipSpace cs with
      | ']' :: rest => some (.array [], rest)
      | cs => (parseItems depth cs).map (fun (items, rest) => (.array items, rest))
    | '\x7b' :: cs =>
      match skipSpace cs with
      | '\x7d' :: rest => some (.object [], rest)
      | cs => (parseFields depth cs).map (fun (fields, rest) => (.object fields, rest))
    | cs => parseNumber cs

def parseItems : ℕ → List Char → Option (List Json × List Char)
  | 0, _ => none
  | depth + 1, cs => do
    let (item, cs) ← parseValue depth cs
    match skipSpace cs with
    | ',' :: cs =>
      let (items, rest) ← parseItems depth cs
      return (item :: items, rest)
    | ']' :: rest => return ([item], rest)
    | _ => none

def parseFields : ℕ → List Char → Option (List (String × Json) × List Char)
  | 0, _ => none
  | depth + 1, cs =>
    match skipSpace cs with
    | '"' :: cs => do
      let (key, cs) ← parseString cs
      match skipSpace cs with
      | ':' :: cs =>
        let (value, cs) ← parseValue depth cs
        match skipSpace cs with
        | ',' :: cs =>
          let (fields, rest) ← parseFields depth cs
          return ((key, value) :: fields, rest)
        | '\x7d' :: rest => return ([(key, value)], rest)
        | _ => none
      | _ => none
    | _ => none

end

/-- `JSON.parse`, `none` where it throws. Nothing nests deeper than the text is long. -/
def parse (text : String) : Option Json := do
  let (value, rest) ← parseValue (2 * text.length + 2) text.toList
  if skipSpace rest = [] then some value else none

/-- `value[key]` of a parsed value: of two fields with one name the later counts. -/
def field? (value : Json) (key : String) : Option Json :=
  match value with
  | .object fields => (fields.reverse.find? (fun f => f.1 = key)).map Prod.snd
  | _ => none

/-! ## Truth -/

def digitsValue (digits : List Char) : ℕ :=
  digits.foldl (fun n digit => 10 * n + (digit.toNat - '0'.toNat)) 0

def exponentValue : List Char → ℤ
  | '-' :: digits => -digitsValue digits
  | '+' :: digits => digitsValue digits
  | digits => digitsValue digits

/-- The double nearest the literal is 0: it is at most half the least one, `2⁻¹⁰⁷⁴`. -/
def isZero (literal : String) : Bool :=
  let (mantissa, exponent) := literal.toList.span (fun c => c ≠ 'e' ∧ c ≠ 'E')
  let (whole, fraction) := mantissa.span (· ≠ '.')
  let m := digitsValue ((whole ++ fraction).filter Char.isDigit)
  let places := exponentValue (exponent.drop 1) - (fraction.drop 1).length
  m = 0 ∨ (places < 0 ∧ m * 2 ^ 1075 ≤ 10 ^ places.natAbs)

/-- `Boolean(value)`. -/
def truthy : Json → Bool
  | .null => false
  | .bool value => value
  | .number literal => !isZero literal
  | .string value => value ≠ ""
  | .array _ | .object _ => true

end Json

end Haruspex.JavaScript
