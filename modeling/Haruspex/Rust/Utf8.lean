import Mathlib.Data.Nat.Notation

/-! Bytes as text, the way Rust's `std::str` reads them. -/
namespace Haruspex.Rust
set_option autoImplicit false

/-! ## Sequences of bytes -/

def isContinuation (b : UInt8) : Bool := 0x80 ≤ b && b ≤ 0xBF

/-- The first byte of a character of two bytes. -/
def leadsTwo (b : UInt8) : Bool := 0xC2 ≤ b && b ≤ 0xDF

/-- The first two bytes of a character of three. -/
def startsThree (b b1 : UInt8) : Bool :=
  (b = 0xE0 && 0xA0 ≤ b1 && b1 ≤ 0xBF) || (0xE1 ≤ b && b ≤ 0xEC && isContinuation b1) ||
    (b = 0xED && 0x80 ≤ b1 && b1 ≤ 0x9F) || (0xEE ≤ b && b ≤ 0xEF && isContinuation b1)

/-- The first two bytes of a character of four. -/
def startsFour (b b1 : UInt8) : Bool :=
  (b = 0xF0 && 0x90 ≤ b1 && b1 ≤ 0xBF) || (0xF1 ≤ b && b ≤ 0xF3 && isContinuation b1) ||
    (b = 0xF4 && 0x80 ≤ b1 && b1 ≤ 0x8F)

/-- The value of a character's bytes: what the first stands for, and six bits of each other. -/
def ofBits (first : ℕ) (others : List UInt8) : Char :=
  Char.ofNat (others.foldl (fun n b => n * 64 + b.toNat % 64) first)

/-- The characters bytes stand for, and `none` for each part that stands for none. -/
def utf8Chunks : List UInt8 → List (Option Char)
  | [] => []
  | b :: rest =>
    if b < 0x80 then some (Char.ofNat b.toNat) :: utf8Chunks rest
    else
      match rest with
      | [] => [none]
      | b1 :: rest1 =>
        if leadsTwo b && isContinuation b1 then some (ofBits (b.toNat % 32) [b1]) :: utf8Chunks rest1
        else if startsThree b b1 then
          match rest1 with
          | [] => [none]
          | b2 :: rest2 =>
            if isContinuation b2 then some (ofBits (b.toNat % 16) [b1, b2]) :: utf8Chunks rest2
            else none :: utf8Chunks (b2 :: rest2)
        else if startsFour b b1 then
          match rest1 with
          | [] => [none]
          | b2 :: rest2 =>
            if isContinuation b2 then
              match rest2 with
              | [] => [none]
              | b3 :: rest3 =>
                if isContinuation b3 then
                  some (ofBits (b.toNat % 8) [b1, b2, b3]) :: utf8Chunks rest3
                else none :: utf8Chunks (b3 :: rest3)
            else none :: utf8Chunks (b2 :: rest2)
        else none :: utf8Chunks (b1 :: rest1)

/-- `str::from_utf8` -/
def fromUtf8 (bytes : List UInt8) : Option String :=
  ((utf8Chunks bytes).mapM id).map String.ofList

/-- `String::from_utf8_lossy` -/
def fromUtf8Lossy (bytes : List UInt8) : String :=
  String.ofList ((utf8Chunks bytes).map (fun c => c.getD '\uFFFD'))

/-! ## ASCII -/

theorem utf8Chunks_ascii {b : UInt8} (h : b < 0x80) (rest : List UInt8) :
    utf8Chunks (b :: rest) = some (Char.ofNat b.toNat) :: utf8Chunks rest := by
  rw [utf8Chunks.eq_def]
  simp [h]

theorem utf8Chunks_append_ascii {start : List UInt8} (h : ∀ b ∈ start, b < 0x80)
    (rest : List UInt8) :
    utf8Chunks (start ++ rest) =
      start.map (fun b => some (Char.ofNat b.toNat)) ++ utf8Chunks rest := by
  induction start with
  | nil => rfl
  | cons b start ih =>
    rw [List.cons_append, utf8Chunks_ascii (h b List.mem_cons_self),
      ih (fun b' hmem => h b' (List.mem_cons_of_mem _ hmem))]
    rfl

/-- Text that starts with ASCII characters. -/
theorem fromUtf8_append_ascii {start : List UInt8} (h : ∀ b ∈ start, b < 0x80)
    (rest : List UInt8) :
    fromUtf8 (start ++ rest) = (fromUtf8 rest).map (fun s =>
      String.ofList (start.map (fun b => Char.ofNat b.toNat)) ++ s) := by
  unfold fromUtf8
  rw [utf8Chunks_append_ascii h, List.mapM_append]
  have hstart : (start.map (fun b => some (Char.ofNat b.toNat))).mapM id =
      some (start.map (fun b => Char.ofNat b.toNat)) := by
    induction start with
    | nil => rfl
    | cons b start ih => simp [ih (fun b' hmem => h b' (List.mem_cons_of_mem _ hmem))]
  rw [hstart]
  cases (utf8Chunks rest).mapM id with
  | none => rfl
  | some cs => simp

example : fromUtf8 [0x63, 0xC3, 0xA9, 0xE2, 0x82, 0xAC] = some "cé€" := by decide

example : fromUtf8Lossy [0x61, 0xF0, 0x90, 0x80, 0x62, 0xC0, 0xAF] = "a\uFFFDb\uFFFD\uFFFD" := by
  decide

end Haruspex.Rust

/-! Characters as bytes, and back. -/
namespace Haruspex.Rust
set_option autoImplicit false

/-- `str::as_bytes` -/
def utf8 (cs : List Char) : List UInt8 := cs.flatMap String.utf8EncodeChar

theorem utf8_cons (c : Char) (cs : List Char) : utf8 (c :: cs) = String.utf8EncodeChar c ++ utf8 cs := rfl

theorem utf8_append (a b : List Char) : utf8 (a ++ b) = utf8 a ++ utf8 b := by
  simp [utf8]

/-- The bytes of a character, by its size. -/
theorem encode_cases (c : Char) :
    (c.toNat < 0x80 ∧ String.utf8EncodeChar c = [UInt8.ofNat c.toNat]) ∨
      (0x80 ≤ c.toNat ∧ c.toNat < 0x800 ∧
        String.utf8EncodeChar c = [UInt8.ofNat (c.toNat / 64 + 0xC0), UInt8.ofNat (c.toNat % 64 + 0x80)]) ∨
      (0x800 ≤ c.toNat ∧ c.toNat < 0x10000 ∧
        String.utf8EncodeChar c = [UInt8.ofNat (c.toNat / 4096 + 0xE0),
          UInt8.ofNat (c.toNat / 64 % 64 + 0x80), UInt8.ofNat (c.toNat % 64 + 0x80)]) ∨
      0x10000 ≤ c.toNat ∧ c.toNat < 0x110000 ∧
        String.utf8EncodeChar c = [UInt8.ofNat (c.toNat / 262144 + 0xF0),
          UInt8.ofNat (c.toNat / 4096 % 64 + 0x80), UInt8.ofNat (c.toNat / 64 % 64 + 0x80),
          UInt8.ofNat (c.toNat % 64 + 0x80)] := by
  have hmax : c.toNat < 0x110000 := by
    have h := c.valid
    simp only [UInt32.isValidChar, Nat.isValidChar, Char.toNat_val] at h
    omega
  unfold String.utf8EncodeChar
  simp only [Char.toNat_val]
  by_cases h1 : c.toNat ≤ 0x7F
  · exact .inl ⟨by omega, by simp [h1]⟩
  · by_cases h2 : c.toNat ≤ 0x7FF
    · have hlead : c.toNat / 64 % 32 = c.toNat / 64 := Nat.mod_eq_of_lt (by omega)
      exact .inr (.inl ⟨by omega, by omega, by simp [h1, h2, hlead]⟩)
    · by_cases h3 : c.toNat ≤ 0xFFFF
      · have hlead : c.toNat / 4096 % 16 = c.toNat / 4096 := Nat.mod_eq_of_lt (by omega)
        exact .inr (.inr (.inl ⟨by omega, by omega, by simp [h1, h2, h3, hlead]⟩))
      · have hlead : c.toNat / 262144 % 8 = c.toNat / 262144 := Nat.mod_eq_of_lt (by omega)
        exact .inr (.inr (.inr ⟨by omega, hmax, by simp [h1, h2, h3, hlead]⟩))

/-- The value of a character is none of a surrogate. -/
theorem not_surrogate (c : Char) : c.toNat < 0xD800 ∨ 0xE000 ≤ c.toNat := by
  have h := c.valid
  simp only [UInt32.isValidChar, Nat.isValidChar, Char.toNat_val] at h
  omega

theorem toNat_byte {n : ℕ} (h : n < 256) : (UInt8.ofNat n).toNat = n := by
  simp [Nat.mod_eq_of_lt h]

/-- A byte below 0x80 is a whole character. -/
theorem ascii_of_mem_encode {c : Char} {b : UInt8} (h : b ∈ String.utf8EncodeChar c) (hb : b < 0x80) :
    String.utf8EncodeChar c = [b] ∧ c.toNat = b.toNat := by
  rcases encode_cases c with ⟨hv, henc⟩ | ⟨hlo, hhi, henc⟩ | ⟨hlo, hhi, henc⟩ | ⟨hlo, hhi, henc⟩
  · rw [henc, List.mem_singleton] at h
    rw [h, henc, toNat_byte (by omega)]
    exact ⟨rfl, rfl⟩
  all_goals
    exfalso
    rw [UInt8.lt_iff_toNat_lt] at hb
    rw [henc] at h
    simp only [List.mem_cons, List.not_mem_nil, or_false] at h
    change b.toNat < 128 at hb
  · rcases h with rfl | rfl <;> rw [toNat_byte (by omega)] at hb <;> omega
  · rcases h with rfl | rfl | rfl <;> rw [toNat_byte (by omega)] at hb <;> omega
  · rcases h with rfl | rfl | rfl | rfl <;> rw [toNat_byte (by omega)] at hb <;> omega

theorem le_iff {b b' : UInt8} : b ≤ b' ↔ b.toNat ≤ b'.toNat := UInt8.le_iff_toNat_le

theorem lt_ascii_iff {b : UInt8} : b < 0x80 ↔ b.toNat < 0x80 := UInt8.lt_iff_toNat_lt

theorem eq_iff_toNat {b b' : UInt8} : b = b' ↔ b.toNat = b'.toNat := UInt8.toNat_inj.symm

theorem isContinuation_iff {b : UInt8} : isContinuation b = true ↔ 0x80 ≤ b.toNat ∧ b.toNat ≤ 0xBF := by
  simp [isContinuation, le_iff]

theorem leadsTwo_iff {b : UInt8} : leadsTwo b = true ↔ 0xC2 ≤ b.toNat ∧ b.toNat ≤ 0xDF := by
  simp [leadsTwo, le_iff]

theorem startsThree_iff {b b1 : UInt8} : startsThree b b1 = true ↔
    (b.toNat = 0xE0 ∧ 0xA0 ≤ b1.toNat ∧ b1.toNat ≤ 0xBF) ∨
      (0xE1 ≤ b.toNat ∧ b.toNat ≤ 0xEC ∧ 0x80 ≤ b1.toNat ∧ b1.toNat ≤ 0xBF) ∨
      (b.toNat = 0xED ∧ 0x80 ≤ b1.toNat ∧ b1.toNat ≤ 0x9F) ∨
      0xEE ≤ b.toNat ∧ b.toNat ≤ 0xEF ∧ 0x80 ≤ b1.toNat ∧ b1.toNat ≤ 0xBF := by
  simp [startsThree, isContinuation, le_iff, eq_iff_toNat, or_assoc, and_assoc]

theorem startsFour_iff {b b1 : UInt8} : startsFour b b1 = true ↔
    (b.toNat = 0xF0 ∧ 0x90 ≤ b1.toNat ∧ b1.toNat ≤ 0xBF) ∨
      (0xF1 ≤ b.toNat ∧ b.toNat ≤ 0xF3 ∧ 0x80 ≤ b1.toNat ∧ b1.toNat ≤ 0xBF) ∨
      b.toNat = 0xF4 ∧ 0x80 ≤ b1.toNat ∧ b1.toNat ≤ 0x8F := by
  simp [startsFour, isContinuation, le_iff, eq_iff_toNat, or_assoc, and_assoc]

theorem ofBits_eq {first : ℕ} {others : List UInt8} {c : Char}
    (h : others.foldl (fun n b => n * 64 + b.toNat % 64) first = c.toNat) : ofBits first others = c := by
  rw [ofBits, h, Char.ofNat_toNat]

/-- What is read first of the bytes of a character, and others after them, is the character. -/
theorem utf8Chunks_encode (c : Char) (rest : List UInt8) :
    utf8Chunks (String.utf8EncodeChar c ++ rest) = some c :: utf8Chunks rest := by
  have hsurrogate := not_surrogate c
  rcases encode_cases c with ⟨hv, henc⟩ | ⟨hlo, hhi, henc⟩ | ⟨hlo, hhi, henc⟩ | ⟨hlo, hhi, henc⟩
  · rw [henc, List.singleton_append, utf8Chunks_ascii, toNat_byte (by omega), Char.ofNat_toNat]
    rw [UInt8.lt_iff_toNat_lt, toNat_byte (by omega)]
    exact hv
  · have h0 := toNat_byte (show c.toNat / 64 + 0xC0 < 256 by omega)
    have h1 := toNat_byte (show c.toNat % 64 + 0x80 < 256 by omega)
    rw [henc, List.cons_append, List.singleton_append]
    generalize UInt8.ofNat (c.toNat / 64 + 0xC0) = b0 at h0 ⊢
    generalize UInt8.ofNat (c.toNat % 64 + 0x80) = b1 at h1 ⊢
    have hascii : ¬ b0 < 0x80 := by
      rw [lt_ascii_iff]
      omega
    have hlead : leadsTwo b0 = true := leadsTwo_iff.mpr (by omega)
    have hcont : isContinuation b1 = true := isContinuation_iff.mpr (by omega)
    have hbits : ofBits (b0.toNat % 32) [b1] = c := ofBits_eq (by simp [h0, h1]; omega)
    rw [utf8Chunks.eq_def]
    simp [hascii, hlead, hcont, hbits]
  · have h0 := toNat_byte (show c.toNat / 4096 + 0xE0 < 256 by omega)
    have h1 := toNat_byte (show c.toNat / 64 % 64 + 0x80 < 256 by omega)
    have h2 := toNat_byte (show c.toNat % 64 + 0x80 < 256 by omega)
    rw [henc, List.cons_append, List.cons_append, List.singleton_append]
    generalize UInt8.ofNat (c.toNat / 4096 + 0xE0) = b0 at h0 ⊢
    generalize UInt8.ofNat (c.toNat / 64 % 64 + 0x80) = b1 at h1 ⊢
    generalize UInt8.ofNat (c.toNat % 64 + 0x80) = b2 at h2 ⊢
    have hascii : ¬ b0 < 0x80 := by
      rw [lt_ascii_iff]
      omega
    have hlead : ¬ leadsTwo b0 = true := by
      rw [leadsTwo_iff]
      omega
    have hthree : startsThree b0 b1 = true := startsThree_iff.mpr (by omega)
    have hcont : isContinuation b2 = true := isContinuation_iff.mpr (by omega)
    have hbits : ofBits (b0.toNat % 16) [b1, b2] = c := ofBits_eq (by simp [h0, h1, h2]; omega)
    rw [utf8Chunks.eq_def]
    simp [hascii, hlead, hthree, hcont, hbits]
  · have h0 := toNat_byte (show c.toNat / 262144 + 0xF0 < 256 by omega)
    have h1 := toNat_byte (show c.toNat / 4096 % 64 + 0x80 < 256 by omega)
    have h2 := toNat_byte (show c.toNat / 64 % 64 + 0x80 < 256 by omega)
    have h3 := toNat_byte (show c.toNat % 64 + 0x80 < 256 by omega)
    rw [henc, List.cons_append, List.cons_append, List.cons_append, List.singleton_append]
    generalize UInt8.ofNat (c.toNat / 262144 + 0xF0) = b0 at h0 ⊢
    generalize UInt8.ofNat (c.toNat / 4096 % 64 + 0x80) = b1 at h1 ⊢
    generalize UInt8.ofNat (c.toNat / 64 % 64 + 0x80) = b2 at h2 ⊢
    generalize UInt8.ofNat (c.toNat % 64 + 0x80) = b3 at h3 ⊢
    have hascii : ¬ b0 < 0x80 := by
      rw [lt_ascii_iff]
      omega
    have hlead : ¬ leadsTwo b0 = true := by
      rw [leadsTwo_iff]
      omega
    have hthree : ¬ startsThree b0 b1 = true := by
      rw [startsThree_iff]
      omega
    have hfour : startsFour b0 b1 = true := startsFour_iff.mpr (by omega)
    have hcont2 : isContinuation b2 = true := isContinuation_iff.mpr (by omega)
    have hcont3 : isContinuation b3 = true := isContinuation_iff.mpr (by omega)
    have hbits : ofBits (b0.toNat % 8) [b1, b2, b3] = c := ofBits_eq (by simp [h0, h1, h2, h3]; omega)
    rw [utf8Chunks.eq_def]
    simp [hascii, hlead, hthree, hfour, hcont2, hcont3, hbits]

theorem utf8Chunks_utf8 (cs : List Char) (rest : List UInt8) :
    utf8Chunks (utf8 cs ++ rest) = cs.map some ++ utf8Chunks rest := by
  induction cs with
  | nil => rfl
  | cons c cs ih => rw [utf8_cons, List.append_assoc, utf8Chunks_encode, ih, List.map_cons, List.cons_append]

theorem utf8Chunks_nil : utf8Chunks [] = [] := by rw [utf8Chunks.eq_def]

/-- A text comes back from its bytes. -/
theorem fromUtf8Lossy_utf8 (cs : List Char) : (fromUtf8Lossy (utf8 cs)).toList = cs := by
  have h := utf8Chunks_utf8 cs []
  rw [List.append_nil] at h
  rw [fromUtf8Lossy, h, utf8Chunks_nil, List.append_nil, String.toList_ofList, List.map_map]
  exact List.map_id cs

theorem fromUtf8Lossy_encode (c : Char) (bytes : List UInt8) :
    (fromUtf8Lossy (String.utf8EncodeChar c ++ bytes)).toList = c :: (fromUtf8Lossy bytes).toList := by
  simp [fromUtf8Lossy, utf8Chunks_encode]

/-! ## How much is read -/

/-- A byte that only goes on with a character stands for none of its own. -/
theorem utf8Chunks_continuation {b : UInt8} (h : isContinuation b = true) (rest : List UInt8) :
    utf8Chunks (b :: rest) = none :: utf8Chunks rest := by
  rw [isContinuation_iff] at h
  have hascii : ¬ b < 0x80 := by
    rw [lt_ascii_iff]
    omega
  have htwo : ¬ leadsTwo b = true := by
    rw [leadsTwo_iff]
    omega
  have hthree (b1 : UInt8) : ¬ startsThree b b1 = true := by
    rw [startsThree_iff]
    omega
  have hfour (b1 : UInt8) : ¬ startsFour b b1 = true := by
    rw [startsFour_iff]
    omega
  rw [utf8Chunks.eq_def]
  cases rest with
  | nil => simp [hascii, utf8Chunks_nil]
  | cons b1 rest => simp [hascii, htwo, hthree, hfour]

theorem isContinuation_of_starts {b b1 : UInt8} (h : startsThree b b1 = true ∨ startsFour b b1 = true) :
    isContinuation b1 = true := by
  rw [startsThree_iff, startsFour_iff] at h
  rw [isContinuation_iff]
  omega

/-- One byte more is at most one character more. -/
theorem length_utf8Chunks_cons (b : UInt8) (bytes : List UInt8) :
    (utf8Chunks (b :: bytes)).length ≤ (utf8Chunks bytes).length + 1 := by
  have hread := utf8Chunks.eq_def (b :: bytes)
  rw [hread]
  dsimp only
  split
  · exact Nat.le_refl _
  · cases bytes with
    | nil => simp
    | cons b1 rest1 =>
      dsimp only
      split
      · rename_i htwo
        rw [Bool.and_eq_true] at htwo
        rw [utf8Chunks_continuation htwo.2, List.length_cons, List.length_cons]
        omega
      · split
        · rename_i hthree
          rw [utf8Chunks_continuation (isContinuation_of_starts (.inl hthree)), List.length_cons]
          cases rest1 with
          | nil => simp
          | cons b2 rest2 =>
            dsimp only
            split
            · rename_i hcont
              rw [utf8Chunks_continuation hcont, List.length_cons, List.length_cons]
              omega
            · rw [List.length_cons]
              omega
        · split
          · rename_i hfour
            rw [utf8Chunks_continuation (isContinuation_of_starts (.inr hfour)), List.length_cons]
            cases rest1 with
            | nil => simp
            | cons b2 rest2 =>
              dsimp only
              split
              · rename_i hcont
                rw [utf8Chunks_continuation hcont, List.length_cons]
                cases rest2 with
                | nil => simp
                | cons b3 rest3 =>
                  dsimp only
                  split
                  · rename_i hcont'
                    rw [utf8Chunks_continuation hcont', List.length_cons, List.length_cons]
                    omega
                  · rw [List.length_cons]
                    omega
              · rw [List.length_cons]
                omega
          · exact Nat.le_refl _

theorem length_fromUtf8Lossy_cons (b : UInt8) (bytes : List UInt8) :
    (fromUtf8Lossy (b :: bytes)).toList.length ≤ (fromUtf8Lossy bytes).toList.length + 1 := by
  have h := length_utf8Chunks_cons b bytes
  simpa [fromUtf8Lossy] using h

end Haruspex.Rust
