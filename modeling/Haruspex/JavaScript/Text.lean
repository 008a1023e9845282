import Mathlib.Data.List.Infix
import Mathlib.Algebra.GroupWithZero.Nat

/-! JavaScript strings, as far as the client depends on them: sizes in UTF-8 bytes and in UTF-16
units, searching, and decoding part of a string's bytes. A string is its list of characters. Half of
a surrogate pair, which only a cut can leave, is U+FFFD here, as it is once encoded. -/
namespace Haruspex.JavaScript
set_option autoImplicit false

/-! ## Letters and digits -/

/-- `[A-Za-z0-9]` -/
theorem toNat_of_alphanum {c : Char} (h : c.isAlphanum = true) :
    (65 ≤ c.toNat ∧ c.toNat ≤ 90) ∨ (97 ≤ c.toNat ∧ c.toNat ≤ 122) ∨ (48 ≤ c.toNat ∧ c.toNat ≤ 57) := by
  have hcases : ((decide ('A'.val ≤ c.val ∧ c.val ≤ 'Z'.val) || (decide ('a'.val ≤ c.val) && decide (c.val ≤ 'z'.val))) ||
      (decide ('0'.val ≤ c.val) && decide (c.val ≤ '9'.val))) = true := h
  rw [Bool.or_eq_true, Bool.or_eq_true, Bool.and_eq_true, Bool.and_eq_true, decide_eq_true_eq, decide_eq_true_eq,
    decide_eq_true_eq, decide_eq_true_eq, decide_eq_true_eq] at hcases
  rcases hcases with (⟨hlo, hhi⟩ | ⟨hlo, hhi⟩) | ⟨hlo, hhi⟩
  · exact Or.inl ⟨UInt32.le_iff_toNat_le.mp hlo, UInt32.le_iff_toNat_le.mp hhi⟩
  · exact Or.inr (Or.inl ⟨UInt32.le_iff_toNat_le.mp hlo, UInt32.le_iff_toNat_le.mp hhi⟩)
  · exact Or.inr (Or.inr ⟨UInt32.le_iff_toNat_le.mp hlo, UInt32.le_iff_toNat_le.mp hhi⟩)

theorem toLower_of_not_upper {c : Char} (h : ¬ (65 ≤ c.toNat ∧ c.toNat ≤ 90)) : c.toLower = c := by
  have hval : ¬ (c.val ≥ 'A'.val ∧ c.val ≤ 'Z'.val) :=
    fun hupper => h ⟨UInt32.le_iff_toNat_le.mp hupper.1, UInt32.le_iff_toNat_le.mp hupper.2⟩
  exact dif_neg hval

/-! ## UTF-16 units -/

def toUnits (cs : List Char) : List ℕ :=
  cs.flatMap (fun c =>
    if c.toNat < 0x10000 then [c.toNat]
    else [0xD800 + (c.toNat - 0x10000) / 0x400, 0xDC00 + (c.toNat - 0x10000) % 0x400])

def isHighSurrogate (unit : ℕ) : Bool := 0xD800 ≤ unit ∧ unit < 0xDC00

def isLowSurrogate (unit : ℕ) : Bool := 0xDC00 ≤ unit ∧ unit < 0xE000

def replacement : Char := '\uFFFD'

def ofUnits : List ℕ → List Char
  | [] => []
  | [unit] => [if isHighSurrogate unit || isLowSurrogate unit then replacement else Char.ofNat unit]
  | high :: low :: units =>
    if isHighSurrogate high && isLowSurrogate low then
      Char.ofNat (0x10000 + (high - 0xD800) * 0x400 + (low - 0xDC00)) :: ofUnits units
    else
      (if isHighSurrogate high || isLowSurrogate high then replacement else Char.ofNat high) ::
        ofUnits (low :: units)

/-- `text.length`. -/
def length (text : String) : ℕ := (toUnits text.toList).length

/-- `text.slice(0, n)`. -/
def sliceTo (text : String) (n : ℕ) : String := String.ofList (ofUnits ((toUnits text.toList).take n))

/-! ## Searching -/

/-- `text.includes(word)`. -/
def includes (text word : String) : Bool := word.toList <:+: text.toList

/-- `text.startsWith(word)`. -/
def startsWith (text word : String) : Bool := word.toList <+: text.toList

/-! ## Blanks -/

/-- White space and line ends. -/
def isBlank (c : Char) : Bool :=
  (9 ≤ c.toNat && c.toNat ≤ 13) || (0x2000 ≤ c.toNat && c.toNat ≤ 0x200A) ||
    [0x20, 0xA0, 0x1680, 0x2028, 0x2029, 0x202F, 0x205F, 0x3000, 0xFEFF].contains c.toNat

/-- `text.trim()`. -/
def trim (text : String) : String :=
  String.ofList ((text.toList.dropWhile isBlank).reverse.dropWhile isBlank).reverse

/-- `text.slice(text.indexOf(word) + word.length)`, if the word is there. -/
def afterWord (word : List Char) : List Char → Option (List Char)
  | [] => if word = [] then some [] else none
  | c :: cs => if word <+: c :: cs then some ((c :: cs).drop word.length) else afterWord word cs

/-! ## UTF-8 -/

def utf8Bytes (cs : List Char) : ℕ := (cs.map Char.utf8Size).sum

theorem utf8Bytes_cons (c : Char) (cs : List Char) :
    utf8Bytes (c :: cs) = c.utf8Size + utf8Bytes cs := by
  simp [utf8Bytes]

theorem utf8Bytes_append (as bs : List Char) :
    utf8Bytes (as ++ bs) = utf8Bytes as + utf8Bytes bs := by
  simp [utf8Bytes]

theorem length_le_utf8Bytes (cs : List Char) : cs.length ≤ utf8Bytes cs := by
  induction cs with
  | nil => exact Nat.zero_le _
  | cons c cs ih =>
    have hpos := c.utf8Size_pos
    rw [utf8Bytes_cons, List.length_cons]
    omega

/-- `new TextEncoder().encode(text).length`. -/
def byteLength (text : String) : ℕ := utf8Bytes text.toList

theorem byteLength_append (a b : String) : byteLength (a ++ b) = byteLength a + byteLength b := by
  rw [byteLength, String.toList_append, utf8Bytes_append]
  rfl

/-- `TextDecoder` leaves out a byte order mark at the start. -/
def stripBom : List Char → List Char
  | '\uFEFF' :: cs => cs
  | cs => cs

/-- The first `n` bytes, decoded: what is left of a character cut short is one U+FFFD. -/
def front : ℕ → List Char → List Char
  | _, [] => []
  | n, c :: cs =>
    if c.utf8Size ≤ n then c :: front (n - c.utf8Size) cs
    else if n = 0 then []
    else [replacement]

/-- All but the first `n` bytes, decoded: each byte left of a character cut short is U+FFFD. -/
def back : ℕ → List Char → List Char
  | _, [] => []
  | n, c :: cs =>
    if n = 0 then c :: cs
    else if c.utf8Size ≤ n then back (n - c.utf8Size) cs
    else List.replicate (c.utf8Size - n) replacement ++ cs

/-- `decoder.decode(bytes.slice(0, n))`. -/
def decodeFront (n : ℕ) (cs : List Char) : List Char := stripBom (front n cs)

/-- `decoder.decode(bytes.slice(n))`. -/
def decodeBack (n : ℕ) (cs : List Char) : List Char := stripBom (back n cs)

/-! ## Numbers -/

/-- `(num / den).toFixed(digits)`, for a quotient that is not negative. -/
def toFixed (digits num den : ℕ) : String :=
  let scaled := (2 * num * 10 ^ digits + den) / (2 * den)
  toString (scaled / 10 ^ digits) ++ "." ++
    String.ofList ((Nat.toDigits 10 (scaled % 10 ^ digits)).leftpad digits '0')

/-! ## Strings cut at a number of UTF-16 units -/

theorem toUnits_cons (c : Char) (cs : List Char) : toUnits (c :: cs) = toUnits [c] ++ toUnits cs := by
  simp [toUnits]

theorem toNat_lt (c : Char) : c.toNat < 0x110000 := by
  obtain h | h := c.valid
  · exact Nat.lt_trans h (by decide)
  · exact h.2

theorem not_surrogate (c : Char) : isHighSurrogate c.toNat = false ∧ isLowSurrogate c.toNat = false := by
  have hrange : c.toNat < 0xD800 ∨ 0xDFFF < c.toNat := by
    obtain h | h := c.valid
    · exact .inl h
    · exact .inr h.1
  simp only [isHighSurrogate, isLowSurrogate, decide_eq_false_iff_not]
  omega

/-- A unit that is a character of its own. -/
theorem ofUnits_cons_of_char (c : Char) (units : List ℕ) :
    ofUnits (c.toNat :: units) = c :: ofUnits units := by
  obtain ⟨hhigh, hlow⟩ := not_surrogate c
  cases units with
  | nil => simp [ofUnits, hhigh, hlow]
  | cons unit units => simp [ofUnits, hhigh, hlow]

theorem isHighSurrogate_of_pair (c : Char) :
    isHighSurrogate (0xD800 + (c.toNat - 0x10000) / 0x400) = true := by
  have hsize := toNat_lt c
  simp only [isHighSurrogate, decide_eq_true_eq]
  omega

/-- Two units that are the halves of a character. -/
theorem ofUnits_cons_of_pair (c : Char) (h : 0x10000 ≤ c.toNat) (units : List ℕ) :
    ofUnits ((0xD800 + (c.toNat - 0x10000) / 0x400) :: (0xDC00 + (c.toNat - 0x10000) % 0x400) :: units) =
      c :: ofUnits units := by
  have hsize := toNat_lt c
  have hlow : isLowSurrogate (0xDC00 + (c.toNat - 0x10000) % 0x400) = true := by
    simp only [isLowSurrogate, decide_eq_true_eq]
    omega
  have hsum : 0x10000 + (0xD800 + (c.toNat - 0x10000) / 0x400 - 0xD800) * 0x400 +
      (0xDC00 + (c.toNat - 0x10000) % 0x400 - 0xDC00) = c.toNat := by omega
  rw [ofUnits, isHighSurrogate_of_pair, hlow, hsum]
  simp

theorem toUnits_of_char {c : Char} (h : c.toNat < 0x10000) : toUnits [c] = [c.toNat] := by
  simp [toUnits, h]

theorem toUnits_of_pair {c : Char} (h : 0x10000 ≤ c.toNat) :
    toUnits [c] = [0xD800 + (c.toNat - 0x10000) / 0x400, 0xDC00 + (c.toNat - 0x10000) % 0x400] := by
  have hlarge : ¬ c.toNat < 0x10000 := by omega
  simp [toUnits, hlarge]

/-- A cut that leaves two units leaves the first character. -/
theorem ofUnits_take_cons (c : Char) (cs : List Char) (n : ℕ) :
    ∃ m, ofUnits ((toUnits (c :: cs)).take (n + 2)) = c :: ofUnits ((toUnits cs).take m) := by
  rw [toUnits_cons]
  by_cases h : c.toNat < 0x10000
  · refine ⟨n + 1, ?_⟩
    rw [toUnits_of_char h, List.singleton_append, List.take_succ_cons, ofUnits_cons_of_char]
  · refine ⟨n, ?_⟩
    rw [toUnits_of_pair (by omega), List.cons_append, List.singleton_append, List.take_succ_cons,
      List.take_succ_cons, ofUnits_cons_of_pair c (by omega)]

/-- What a cut leaves are characters of the string, but half of one. -/
theorem mem_ofUnits_take {cs : List Char} {n : ℕ} {d : Char} (h : d ∈ ofUnits ((toUnits cs).take n)) :
    d ∈ cs ∨ d = replacement := by
  induction cs generalizing n with
  | nil => simp [toUnits, ofUnits] at h
  | cons c cs ih =>
    match n with
    | 0 => simp [ofUnits] at h
    | 1 =>
      rw [toUnits_cons] at h
      by_cases hc : c.toNat < 0x10000
      · rw [toUnits_of_char hc, List.singleton_append, List.take_succ_cons, List.take_zero,
          ofUnits_cons_of_char, ofUnits, List.mem_singleton] at h
        exact .inl (h ▸ List.mem_cons_self)
      · rw [toUnits_of_pair (by omega), List.cons_append, List.take_succ_cons, List.take_zero] at h
        simp only [ofUnits, isHighSurrogate_of_pair, Bool.true_or, if_true, List.mem_singleton] at h
        exact .inr h
    | n + 2 =>
      obtain ⟨m, hcut⟩ := ofUnits_take_cons c cs n
      rw [hcut] at h
      obtain rfl | h := List.mem_cons.mp h
      · exact .inl List.mem_cons_self
      · obtain h | h := ih h
        · exact .inl (List.mem_cons_of_mem c h)
        · exact .inr h

end Haruspex.JavaScript
