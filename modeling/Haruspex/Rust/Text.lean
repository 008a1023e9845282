import Mathlib.Data.List.Induction
import Mathlib.Data.List.Infix
import Mathlib.Data.Nat.Notation
import Mathlib.Data.Int.Notation
import Mathlib.Algebra.GroupWithZero.Nat

/-! Rust's `char` and `str`, as far as the host depends on them. -/
namespace Haruspex.Rust
set_option autoImplicit false

/-- `char::is_control` -/
def isControl (c : Char) : Bool := c.toNat < 0x20 || (0x7F ≤ c.toNat && c.toNat < 0xA0)

/-- `char::is_whitespace` -/
def isWhitespace (c : Char) : Bool :=
  (9 ≤ c.toNat && c.toNat ≤ 13) || (0x2000 ≤ c.toNat && c.toNat ≤ 0x200A) ||
    [0x20, 0x85, 0xA0, 0x1680, 0x2028, 0x2029, 0x202F, 0x205F, 0x3000].contains c.toNat

def trim (cs : List Char) : List Char :=
  ((cs.dropWhile isWhitespace).reverse.dropWhile isWhitespace).reverse

/-- `str::len` -/
def byteLen (cs : List Char) : ℕ := (cs.map Char.utf8Size).sum

/-- `str::split_whitespace` -/
def splitWhitespace (cs : List Char) : List (List Char) := (cs.splitOnP isWhitespace).filter (· ≠ [])

/-- `strip_prefix` -/
def stripPrefix (text start : String) : Option String :=
  if start.toList <+: text.toList then some (String.ofList (text.toList.drop start.toList.length))
  else none

/-- The digits of a number, nothing before or after them. -/
def parseDigits (cs : List Char) : Option ℕ :=
  if cs ≠ [] ∧ cs.all Char.isDigit then some (Nat.ofDigitChars 10 cs 0) else none

/-- `str::parse::<usize>` -/
def parseUsize (cs : List Char) : Option ℕ :=
  (parseDigits (if cs.head? = some '+' then cs.tail else cs)).filter (· < 2 ^ 64)

/-- `str::parse::<i64>` -/
def parseI64 (cs : List Char) : Option ℤ :=
  if cs.head? = some '-' then
    ((parseDigits cs.tail).filter (· ≤ 2 ^ 63)).map (fun n => -(n : ℤ))
  else
    ((parseDigits (if cs.head? = some '+' then cs.tail else cs)).filter (· < 2 ^ 63)).map Int.ofNat

theorem parseDigits_eq_some {cs : List Char} {n : ℕ} :
    parseDigits cs = some n ↔
      cs ≠ [] ∧ (∀ c ∈ cs, c.isDigit = true) ∧ n = Nat.ofDigitChars 10 cs 0 := by
  unfold parseDigits
  split
  · rename_i h
    rw [Option.some_inj, eq_comm]
    exact ⟨fun hn => ⟨h.1, List.all_eq_true.mp h.2, hn⟩, fun hn => hn.2.2⟩
  · rename_i h
    exact ⟨fun hn => (by cases hn), fun hn => absurd ⟨hn.1, List.all_eq_true.mpr hn.2.1⟩ h⟩

theorem eq_append_of_stripPrefix {text start rest : String} (h : stripPrefix text start = some rest) :
    text = start ++ rest := by
  unfold stripPrefix at h
  split at h
  · rename_i hstart
    obtain ⟨tail, htail⟩ := hstart
    rw [Option.some_inj] at h
    rw [← h, ← String.toList_inj, String.toList_append, ← htail]
    simp
  · cases h

theorem byteLen_append (a b : List Char) : byteLen (a ++ b) = byteLen a + byteLen b := by
  rw [byteLen, byteLen, byteLen, List.map_append, List.sum_append]

/-! ## Trimming -/

theorem dropWhile_of_no_blank {cs : List Char} (h : ∀ c ∈ cs, isWhitespace c = false) :
    cs.dropWhile isWhitespace = cs := by
  cases cs with
  | nil => rfl
  | cons c cs => rw [List.dropWhile_cons_of_neg (by rw [h c List.mem_cons_self]; decide)]

theorem trim_eq_self {cs : List Char} (h : ∀ c ∈ cs, isWhitespace c = false) : trim cs = cs := by
  unfold trim
  rw [dropWhile_of_no_blank h, dropWhile_of_no_blank fun c hc => h c (List.mem_reverse.mp hc),
    List.reverse_reverse]

/-- White space before a text is cut off. -/
theorem trim_after {blanks cs : List Char} (hblanks : ∀ c ∈ blanks, isWhitespace c = true)
    (h : ∀ c ∈ cs, isWhitespace c = false) : trim (blanks ++ cs) = cs := by
  have hdrop : (blanks ++ cs).dropWhile isWhitespace = cs := by
    rw [List.dropWhile_append_of_pos hblanks, dropWhile_of_no_blank h]
  unfold trim
  rw [hdrop, dropWhile_of_no_blank fun c hc => h c (List.mem_reverse.mp hc), List.reverse_reverse]

/-! ## Words -/

/-- Something between white space. -/
def IsWord (w : List Char) : Prop := w ≠ [] ∧ ∀ c ∈ w, isWhitespace c = false

theorem isWord_of_mem_splitOnP {p : Char → Bool} {cs w : List Char} (h : w ∈ cs.splitOnP p) : ∀ c ∈ w, p c = false := by
  induction cs generalizing w with
  | nil =>
    rw [List.splitOnP_nil, List.mem_singleton] at h
    rw [h]
    nofun
  | cons d cs ih =>
    rw [List.splitOnP_cons_eq_if_modifyHead] at h
    split at h
    · obtain rfl | h := List.mem_cons.mp h
      · nofun
      · exact ih h
    · rename_i hd
      cases hsplit : cs.splitOnP p with
      | nil => exact absurd hsplit (List.splitOnP_ne_nil p cs)
      | cons first rest =>
        rw [hsplit, List.modifyHead_cons] at h
        obtain rfl | h := List.mem_cons.mp h
        · intro c hc
          obtain rfl | hc := List.mem_cons.mp hc
          · exact Bool.eq_false_iff.mpr hd
          · exact ih (by rw [hsplit]; exact List.mem_cons_self) c hc
        · exact ih (by rw [hsplit]; exact List.mem_cons_of_mem first h)

theorem isWord_of_mem {cs w : List Char} (h : w ∈ splitWhitespace cs) : IsWord w := by
  obtain ⟨hmem, hne⟩ := List.mem_filter.mp h
  exact ⟨by simpa using hne, isWord_of_mem_splitOnP hmem⟩

theorem splitWhitespace_word {w : List Char} (h : IsWord w) : splitWhitespace w = [w] := by
  rw [splitWhitespace, List.splitOnP_eq_singleton h.2, List.filter_cons_of_pos (by simpa using h.1), List.filter_nil]

/-- A word after white space is one more. -/
theorem splitWhitespace_snoc {cs w : List Char} {c : Char} (hc : isWhitespace c = true) (hw : IsWord w) :
    splitWhitespace (cs ++ c :: w) = splitWhitespace cs ++ [w] := by
  have hword := splitWhitespace_word hw
  rw [splitWhitespace] at hword
  rw [splitWhitespace, List.splitOnP_append_cons cs w hc, List.filter_append, hword, splitWhitespace]

@[simp] theorem splitWhitespace_nil : splitWhitespace [] = [] := by
  rw [splitWhitespace, List.splitOnP_nil]
  rfl

/-- White space ends a word. -/
theorem splitWhitespace_blank (a b : List Char) {c : Char} (hc : isWhitespace c = true) :
    splitWhitespace (a ++ c :: b) = splitWhitespace a ++ splitWhitespace b := by
  rw [splitWhitespace, List.splitOnP_append_cons a b hc, List.filter_append, splitWhitespace, splitWhitespace]

/-- Two texts meet inside a word. -/
def glued (a b : List Char) : Bool :=
  a.getLast?.any (fun c => !isWhitespace c) && b.head?.any (fun c => !isWhitespace c)

theorem splitWhitespace_append {a b : List Char} (h : glued a b = false) :
    splitWhitespace (a ++ b) = splitWhitespace a ++ splitWhitespace b := by
  cases b with
  | nil => simp
  | cons d b =>
    by_cases hd : isWhitespace d = true
    · have hfront := splitWhitespace_blank [] b hd
      rw [List.nil_append, splitWhitespace_nil, List.nil_append] at hfront
      rw [splitWhitespace_blank a b hd, hfront]
    · cases a using List.reverseRecOn with
      | nil => simp
      | append_singleton a c =>
        have hc : isWhitespace c = true := by
          simpa [glued, hd] using h
        have hback := splitWhitespace_blank a [] hc
        rw [splitWhitespace_nil, List.append_nil] at hback
        rw [List.append_assoc, List.singleton_append, splitWhitespace_blank a _ hc, hback]

/-- The places where a word ends. -/
def wordEnds : List Char → ℕ
  | [] => 0
  | c :: cs => (if isWhitespace c = false ∧ cs.head?.all isWhitespace = true then 1 else 0) + wordEnds cs

theorem splitOnP_head (p : Char → Bool) (cs : List Char) :
    ∃ rest, cs.splitOnP p = cs.takeWhile (fun c => !p c) :: rest := by
  induction cs with
  | nil => exact ⟨[], rfl⟩
  | cons c cs ih =>
    obtain ⟨rest, hrest⟩ := ih
    rw [List.splitOnP_cons_eq_if_modifyHead]
    by_cases hc : p c = true
    · exact ⟨_, by simp [hc]; rfl⟩
    · rw [if_neg hc, hrest]
      exact ⟨rest, by simp [hc]⟩

theorem length_splitWhitespace (cs : List Char) : (splitWhitespace cs).length = wordEnds cs := by
  induction cs with
  | nil => rfl
  | cons c cs ih =>
    by_cases hc : isWhitespace c = true
    · have hfront := splitWhitespace_blank [] cs hc
      rw [List.nil_append, splitWhitespace_nil, List.nil_append] at hfront
      rw [hfront, ih, wordEnds]
      simp [hc]
    · obtain ⟨rest, hrest⟩ := splitOnP_head isWhitespace cs
      rw [splitWhitespace, hrest] at ih
      rw [splitWhitespace, List.splitOnP_cons_eq_if_modifyHead, if_neg hc, hrest, List.modifyHead_cons, wordEnds, ← ih]
      cases cs with
      | nil => simp [hc, Nat.add_comm]
      | cons d cs => by_cases hd : isWhitespace d = true <;> simp [hc, hd, Nat.add_comm]

theorem wordEnds_append (a b : List Char) :
    wordEnds (a ++ b) + (if glued a b = true then 1 else 0) = wordEnds a + wordEnds b := by
  induction a with
  | nil => simp [glued, wordEnds]
  | cons c a ih =>
    cases a with
    | nil =>
      cases b with
      | nil => simp [glued, wordEnds]
      | cons d b =>
        by_cases hc : isWhitespace c = true <;> by_cases hd : isWhitespace d = true <;>
          simp [glued, wordEnds, hc, hd, Nat.add_comm]
    | cons c' a =>
      have hglued : glued (c :: c' :: a) b = glued (c' :: a) b := by simp [glued]
      have hstep : ∀ rest, wordEnds (c :: c' :: rest) =
          (if isWhitespace c = false ∧ isWhitespace c' = true then 1 else 0) + wordEnds (c' :: rest) := by
        intro rest
        rfl
      rw [hglued, List.cons_append, List.cons_append, hstep, hstep, ← List.cons_append]
      omega

/-- Words joined by spaces are read again. -/
theorem splitWhitespace_intercalate {ws : List (List Char)} (h : ∀ w ∈ ws, IsWord w) :
    splitWhitespace ([' '].intercalate ws) = ws := by
  induction ws with
  | nil => rfl
  | cons w ws ih =>
    have hw := h w List.mem_cons_self
    cases ws with
    | nil => simpa using splitWhitespace_word hw
    | cons v ws =>
      have hjoin : [' '].intercalate (w :: v :: ws) = w ++ ' ' :: [' '].intercalate (v :: ws) := by
        simp [List.intercalate, List.intersperse]
      rw [hjoin, splitWhitespace_blank _ _ (by decide), splitWhitespace_word hw,
        ih fun u hu => h u (List.mem_cons_of_mem _ hu)]
      rfl

end Haruspex.Rust
