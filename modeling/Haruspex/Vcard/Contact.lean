import Haruspex.Vcard.Model

/-! What a card says of a contact (`parse_card` and what it calls in `integrations/dav/vcard.rs`). -/
namespace Haruspex.Vcard
open Rust (trim byteLen)
set_option autoImplicit false

structure TypedValue where
  kind : Option (List Char)
  value : List Char
  deriving DecidableEq

structure Contact where
  account_id : List Char := []
  account_label : List Char := []
  address_book : List Char := []
  uid : List Char := []
  full_name : List Char := []
  first_name : Option (List Char) := none
  last_name : Option (List Char) := none
  emails : List TypedValue := []
  phones : List TypedValue := []
  addresses : List TypedValue := []
  organization : Option (List Char) := none
  title : Option (List Char) := none
  note : Option (List Char) := none
  birthday : Option (List Char) := none
  has_photo : Bool := false
  deriving DecidableEq

structure ContactSource where
  account_id : List Char
  account_label : List Char
  address_book : List Char

/-! ## Values -/

def nonEmpty (value : List Char) : Option (List Char) := if trim value = [] then none else some (trim value)

def firstNonempty (parts : List (List Char)) : Option (List Char) :=
  parts.findSome? fun p => nonEmpty (unescape p)

/-- `join(separator)` -/
def join (separator : String) (parts : List (List Char)) : List Char := separator.toList.intercalate parts

/-- `Last;First;Middle;Prefix;Suffix`, in the order it is spoken. -/
def assembleName (parts : List (List Char)) : List Char :=
  let get (i : ℕ) : List Char := ((parts[i]?).map unescape).getD []
  join " " (([get 3, get 1, get 2, get 0, get 4].map trim).filter (· ≠ []))

def formatAddress (parts : List (List Char)) : List Char :=
  join ", " ((parts.map fun p => trim (unescape p)).filter (· ≠ []))

/-- `NOISE_TYPES` -/
def noiseTypes : List (List Char) :=
  ["internet".toList, "voice".toList, "pref".toList, "other".toList, "x-internet".toList]

local instance lawfulWords : LawfulBEq (List Char) := inferInstance

def plainKind (words : List (List Char)) : Option (List Char) := words.find? (· ∉ noiseTypes)

def emailKind (words : List (List Char)) : Option (List Char) := plainKind words

def phoneKind (words : List (List Char)) : Option (List Char) :=
  (plainKind words).map fun k => if k = "cell".toList ∨ k = "iphone".toList then "mobile".toList else k

def pushTyped (into : List TypedValue) (line : Line) (value : List Char)
    (kind : List (List Char) → Option (List Char)) : List TypedValue :=
  if trim value = [] then into else into ++ [⟨kind line.typeWords, trim value⟩]

/-- A date of eight digits gets its dashes, sliced out of the text. -/
def normalizeBirthday (value : List Char) : Option (List Char) :=
  let date := (trim value).takeWhile fun c => c ≠ 'T' ∧ c ≠ 't'
  if byteLen date = 8 ∧ date.all Char.isDigit = true then do
    let year ← sliceStr date 0 4
    let month ← sliceStr date 4 6
    let day ← sliceStr date 6 8
    some (year ++ ['-'] ++ month ++ ['-'] ++ day)
  else some date

/-! ## A card -/

/-- The contact so far, and the structured name. -/
structure Reading where
  contact : Contact
  structured_name : Option (List (List Char)) := none

/-- What one line sets. -/
def Reading.read (r : Reading) (line : Line) : Option Reading := do
  let value ← decodeValue line
  let contact := r.contact
  match String.ofList (upper line.name) with
  | "UID" => some { r with contact := { contact with uid := trim value } }
  | "FN" => some { r with contact := { contact with full_name := trim (unescape value) } }
  | "N" => do
    let parts ← splitStructured value
    some { r with structured_name := some parts }
  | "EMAIL" =>
    some { r with contact :=
      { contact with emails := pushTyped contact.emails line (unescape value) emailKind } }
  | "TEL" =>
    some { r with contact :=
      { contact with phones := pushTyped contact.phones line (unescape value) phoneKind } }
  | "ADR" => do
    let parts ← splitStructured value
    some { r with contact :=
      { contact with addresses := pushTyped contact.addresses line (formatAddress parts) plainKind } }
  | "ORG" => do
    let parts ← splitStructured value
    some { r with contact := { contact with organization := firstNonempty parts } }
  | "TITLE" | "ROLE" =>
    some { r with contact :=
      { contact with title := some (contact.title.getD (trim (unescape value))) } }
  | "NOTE" => some { r with contact := { contact with note := nonEmpty (unescape value) } }
  | "BDAY" => do
    let birthday ← normalizeBirthday value
    some { r with contact := { contact with birthday := nonEmpty birthday } }
  | "PHOTO" => some { r with contact := { contact with has_photo := trim value ≠ [] } }
  | _ => some r

/-- What is set after the last line: names from the structured name, and the name and the id that a card
without them gets. A card that identifies nobody is left out. -/
def Reading.finish (r : Reading) (hrefFallback : List Char) : Option Contact :=
  let contact :=
    match r.structured_name with
    | none => r.contact
    | some parts =>
      { r.contact with
        last_name := (parts[0]?).bind fun s => nonEmpty (unescape s)
        first_name := (parts[1]?).bind fun s => nonEmpty (unescape s)
        full_name := if r.contact.full_name = [] then assembleName parts else r.contact.full_name }
  let contact :=
    if contact.full_name = [] then
      { contact with full_name :=
          ((contact.emails.head?.map TypedValue.value).orElse fun _ => contact.organization).getD [] }
    else contact
  let contact := if contact.uid = [] then { contact with uid := hrefFallback } else contact
  if contact.full_name ≠ [] ∨ contact.emails ≠ [] ∨ contact.phones ≠ [] then some contact else none

def parseCard (card : List Char) (source : ContactSource) (hrefFallback : List Char) :
    Option (Option Contact) := do
  let read ← readLines card
  let r ← read.foldlM Reading.read
    { contact := {
        account_id := source.account_id
        account_label := source.account_label
        address_book := source.address_book } }
  some (r.finish hrefFallback)

def parseContacts (vcf : List Char) (source : ContactSource) (hrefFallback : List Char) :
    Option (List Contact) :=
  ((splitCards vcf).mapM fun card => parseCard card source hrefFallback).map fun cards => cards.filterMap id

end Haruspex.Vcard
