import Haruspex.Vcard.Slices

/-! Which escapes of a quoted-printable value are sliced at boundaries, and what is read then. -/
namespace Haruspex.Vcard
open FsTools (isCharBoundary takeBytes)
open Rust (byteLen byteLen_append hexDigit utf8 utf8_cons utf8_append)
set_option autoImplicit false

/-! ## Bytes -/

theorem length_utf8 (cs : List Char) : (utf8 cs).length = byteLen cs := by
  induction cs with
  | nil => rfl
  | cons c cs ih => rw [utf8_cons, List.length_append, ih, String.length_utf8EncodeChar, byteLen_cons]

/-- A byte that is an equals sign is the whole character. -/
theorem eq_of_mem_encode {c : Char} (h : 0x3D ∈ String.utf8EncodeChar c) : c = '=' := by
  have hvalue := (Rust.ascii_of_mem_encode h (by decide)).2
  exact Char.toNat_inj.mp hvalue

/-- A hexadecimal digit is one byte, and no sign. -/
theorem hexDigit_plain {c : Char} {n : ℕ} (h : hexDigit c = some n) : c.utf8Size = 1 ∧ c ≠ '=' ∧ c ≠ '+' := by
  have hplain : c.toNat < 128 ∧ (48 ≤ c.toNat ∧ c.toNat ≤ 57 ∨ 65 ≤ c.toNat) := by
    unfold hexDigit at h
    split at h
    · rename_i hdigit
      simp only [Char.isDigit, Bool.and_eq_true, decide_eq_true_eq, UInt32.le_iff_toNat_le] at hdigit
      change 48 ≤ c.toNat ∧ c.toNat ≤ 57 at hdigit
      omega
    · split at h
      · rename_i hlow
        simp only [Char.le_def, UInt32.le_iff_toNat_le] at hlow
        change 97 ≤ c.toNat ∧ c.toNat ≤ 102 at hlow
        omega
      · split at h
        · rename_i hup
          simp only [Char.le_def, UInt32.le_iff_toNat_le] at hup
          change 65 ≤ c.toNat ∧ c.toNat ≤ 70 at hup
          omega
        · cases h
  refine ⟨?_, fun heq => ?_, fun heq => ?_⟩
  · rw [Char.utf8Size_eq_one_iff, UInt32.le_iff_toNat_le]
    change c.toNat ≤ 127
    omega
  · rw [heq] at hplain
    simp at hplain
  · rw [heq] at hplain
    simp at hplain

/-- What two characters that are an escape's are. -/
theorem fromHex_pair {x y : Char} {byte : UInt8} (h : fromHex [x, y] = some byte) :
    x.utf8Size = 1 ∧ y.utf8Size = 1 ∧ x ≠ '=' ∧ y ≠ '=' := by
  unfold fromHex at h
  rw [List.head?_cons] at h
  by_cases hplus : x = '+'
  · subst hplus
    simp only [if_true, List.tail_cons, reduceCtorEq, if_false, Option.bind_eq_some_iff] at h
    obtain ⟨n, hn, -⟩ := h
    cases hy : hexDigit y with
    | none => simp [hy] at hn
    | some m => exact ⟨rfl, (hexDigit_plain hy).1, by decide, (hexDigit_plain hy).2.1⟩
  · simp only [Option.some_inj, hplus, if_false, reduceCtorEq, Option.bind_eq_some_iff] at h
    obtain ⟨n, hn, -⟩ := h
    cases hx : hexDigit x with
    | none => simp [hx] at hn
    | some m =>
      cases hy : hexDigit y with
      | none => simp [hx, hy] at hn
      | some m' =>
        exact ⟨(hexDigit_plain hx).1, (hexDigit_plain hy).1, (hexDigit_plain hx).2.1, (hexDigit_plain hy).2.1⟩

/-- One character of two bytes is no escape's. -/
theorem fromHex_single {x : Char} (h : x.utf8Size = 2) : fromHex [x] = none := by
  cases hx : hexDigit x with
  | none =>
    unfold fromHex
    rw [List.head?_cons]
    by_cases hplus : x = '+'
    · simp [hplus]
    · simp [hplus, hx]
  | some m =>
    rw [(hexDigit_plain hx).1] at h
    cases h

/-! ## Escapes -/

/-- Two bytes follow an equals sign, and end a character, or fewer follow. -/
def EscapeFits (after : List Char) : Prop := 2 ≤ byteLen after → isCharBoundary after 2 = true

/-- Every equals sign of a text is followed so. -/
def EscapesFit (value : List Char) : Prop :=
  ∀ before after, value = before ++ '=' :: after → EscapeFits after

/-- The bytes of a text, its escapes decoded. -/
def decoded : List Char → List UInt8
  | [] => []
  | '=' :: x :: y :: cs =>
    match fromHex [x, y] with
    | some byte => byte :: decoded cs
    | none => 0x3D :: decoded (x :: y :: cs)
  | c :: cs => String.utf8EncodeChar c ++ decoded cs

theorem decodeFrom_end (value : List Char) : decodeFrom value (byteLen value) = some [] := by
  rw [decodeFrom, if_neg (by rw [length_utf8]; omega)]

/-- A byte that is no equals sign is passed through. -/
theorem decodeFrom_skip {value : List Char} {i : ℕ} {byte : UInt8} (h : (utf8 value)[i]? = some byte)
    (hne : byte ≠ 0x3D) : decodeFrom value i = (decodeFrom value (i + 1)).map (byte :: ·) := by
  obtain ⟨hlt, hget⟩ := List.getElem?_eq_some_iff.mp h
  have hgetD : (utf8 value).getD i 0 = byte := by
    rw [List.getD_eq_getElem?_getD, h]
    rfl
  rw [decodeFrom, if_pos hlt]
  simp only [hgetD, hne, false_and, if_false]

theorem decodeFrom_bytes {value : List Char} (bytes : List UInt8) (front back : List UInt8)
    (h : utf8 value = front ++ (bytes ++ back)) (hne : ∀ b ∈ bytes, b ≠ 0x3D) :
    decodeFrom value front.length = (decodeFrom value (front.length + bytes.length)).map (bytes ++ ·) := by
  induction bytes generalizing front with
  | nil => simp
  | cons b bytes ih =>
    rw [List.forall_mem_cons] at hne
    have hhere : (utf8 value)[front.length]? = some b := by simp [h]
    have hrest := ih (front ++ [b]) (by rw [h]; simp) hne.2
    rw [List.length_append, List.length_singleton] at hrest
    rw [decodeFrom_skip hhere hne.1, hrest, Option.map_map, List.length_cons]
    rw [show front.length + 1 + bytes.length = front.length + (bytes.length + 1) by omega]
    rfl

/-- A character that is no equals sign is passed through. -/
theorem decodeFrom_char (before cs : List Char) {c : Char} (hc : c ≠ '=') :
    decodeFrom (before ++ c :: cs) (byteLen before) =
      (decodeFrom (before ++ c :: cs) (byteLen (before ++ [c]))).map (String.utf8EncodeChar c ++ ·) := by
  have hne : ∀ b ∈ String.utf8EncodeChar c, b ≠ 0x3D := fun b hb heq => hc (eq_of_mem_encode (heq ▸ hb))
  have hbytes : utf8 (before ++ c :: cs) = utf8 before ++ (String.utf8EncodeChar c ++ utf8 cs) := by
    rw [utf8_append, utf8_cons]
  have h := decodeFrom_bytes (String.utf8EncodeChar c) (utf8 before) (utf8 cs) hbytes hne
  rw [length_utf8, String.length_utf8EncodeChar] at h
  rw [h, byteLen_append]
  simp [byteLen]

theorem sliceStr_after (a b : List Char) (n : ℕ) :
    sliceStr (a ++ b) (byteLen a) (byteLen a + n) =
      if isCharBoundary b n = true then some (takeBytes b n) else none := by
  have hstart : isCharBoundary (a ++ b) (byteLen a) = true := by
    have h := isCharBoundary_append a b 0
    rwa [Nat.add_zero, isCharBoundary_zero] at h
  unfold sliceStr
  rw [isCharBoundary_append, dropBytes_append, Nat.add_sub_cancel_left]
  simp [hstart]

/-- What the loop does at an equals sign. -/
theorem decodeFrom_escape (before cs : List Char) :
    decodeFrom (before ++ '=' :: cs) (byteLen before) =
      if 2 ≤ byteLen cs then
        if isCharBoundary cs 2 = true then
          match fromHex (takeBytes cs 2) with
          | some byte => (decodeFrom (before ++ '=' :: cs) (byteLen before + 3)).map (byte :: ·)
          | none => (decodeFrom (before ++ '=' :: cs) (byteLen before + 1)).map (0x3D :: ·)
        else none
      else (decodeFrom (before ++ '=' :: cs) (byteLen before + 1)).map (0x3D :: ·) := by
  have hbytes : utf8 (before ++ '=' :: cs) = utf8 before ++ 0x3D :: utf8 cs := by
    rw [utf8_append, utf8_cons]
    rfl
  have hlength : (utf8 (before ++ '=' :: cs)).length = byteLen before + 1 + byteLen cs := by
    rw [hbytes, List.length_append, List.length_cons, length_utf8, length_utf8]
    omega
  have hhere : (utf8 (before ++ '=' :: cs)).getD (byteLen before) 0 = 0x3D := by
    rw [hbytes, ← length_utf8 before]
    simp
  have hslice : sliceStr (before ++ '=' :: cs) (byteLen before + 1) (byteLen before + 3) =
      if isCharBoundary cs 2 = true then some (takeBytes cs 2) else none := by
    have h := sliceStr_after (before ++ ['=']) cs 2
    rwa [byteLen_append, List.append_assoc, show byteLen ['='] = 1 from rfl, Nat.add_assoc] at h
  have hmore : byteLen before + 2 < byteLen before + 1 + byteLen cs ↔ 2 ≤ byteLen cs := by omega
  rw [decodeFrom, if_pos (by omega)]
  simp only [hhere, hlength, hslice, hmore, true_and]
  by_cases htwo : 2 ≤ byteLen cs
  · rw [if_pos htwo, if_pos htwo]
    split
    · rename_i hnone
      rw [if_neg (by simpa using hnone)]
    · rename_i hex hsome
      obtain ⟨hboundary, rfl⟩ : isCharBoundary cs 2 = true ∧ takeBytes cs 2 = hex := by simpa using hsome
      rewrite [if_pos hboundary]
      rfl
  · rw [if_neg htwo, if_neg htwo]

theorem escapesFit_cons (c : Char) (cs : List Char) :
    EscapesFit (c :: cs) ↔ (c = '=' → EscapeFits cs) ∧ EscapesFit cs := by
  constructor
  · intro h
    refine ⟨fun hc => h [] cs (by rw [hc]; rfl), fun before after heq => ?_⟩
    exact h (c :: before) after (by rw [heq]; rfl)
  · rintro ⟨hhead, hrest⟩ before after heq
    cases before with
    | nil =>
      obtain ⟨rfl, rfl⟩ := List.cons.inj heq
      exact hhead rfl
    | cons d before =>
      exact hrest before after (List.cons.inj heq).2

/-- An escape's two characters are what stands at the boundary. -/
theorem takeBytes_two {cs : List Char} (h : 2 ≤ byteLen cs) (hboundary : isCharBoundary cs 2 = true) :
    (∃ x y rest, cs = x :: y :: rest ∧ takeBytes cs 2 = [x, y] ∧ x.utf8Size = 1 ∧ y.utf8Size = 1) ∨
      ∃ x rest, cs = x :: rest ∧ takeBytes cs 2 = [x] ∧ x.utf8Size = 2 := by
  cases cs with
  | nil => simp [byteLen] at h
  | cons x rest =>
    have hx := x.utf8Size_pos
    simp only [isCharBoundary, Bool.and_eq_true, decide_eq_true_eq] at hboundary
    obtain ⟨hle, hrest⟩ := hboundary
    rcases Nat.lt_or_ge x.utf8Size 2 with hone | htwo
    · have hsize : x.utf8Size = 1 := by omega
      rw [hsize] at hrest
      cases rest with
      | nil =>
        rw [byteLen_cons, hsize] at h
        simp [byteLen] at h
      | cons y rest =>
        have hy := y.utf8Size_pos
        simp only [isCharBoundary, Bool.and_eq_true, decide_eq_true_eq] at hrest
        have hsize' : y.utf8Size = 1 := by omega
        refine .inl ⟨x, y, rest, rfl, ?_, hsize, hsize'⟩
        rw [takeBytes, if_pos hle, hsize, takeBytes, if_pos (by omega), hsize']
        cases rest with
        | nil => rfl
        | cons z rest => simp [takeBytes, z.utf8Size_pos.ne']
    · have hsize : x.utf8Size = 2 := by omega
      refine .inr ⟨x, rest, rfl, ?_, hsize⟩
      rw [takeBytes, if_pos hle, hsize]
      cases rest with
      | nil => rfl
      | cons z rest => simp [takeBytes, z.utf8Size_pos.ne']

theorem decoded_other {c : Char} (hc : c ≠ '=') (cs : List Char) :
    decoded (c :: cs) = String.utf8EncodeChar c ++ decoded cs := by
  rw [decoded]
  intro x y rest hequals
  exact absurd hequals hc

/-- An equals sign that starts no escape stands for itself. -/
theorem decoded_plain {cs : List Char} (h : ∀ x y rest, cs = x :: y :: rest → fromHex [x, y] = none) :
    decoded ('=' :: cs) = 0x3D :: decoded cs := by
  rcases cs with _ | ⟨x, _ | ⟨y, rest⟩⟩
  · rfl
  · rw [decoded]
    · rfl
    · intro x y rest _ heq
      cases heq
  · rw [decoded, h x y rest rfl]

theorem decoded_escape {x y : Char} {byte : UInt8} (h : fromHex [x, y] = some byte) (cs : List Char) :
    decoded ('=' :: x :: y :: cs) = byte :: decoded cs := by
  rw [decoded, h]

open Classical in
/-- The loop decodes a text whose escapes fit, and panics at one that does not. -/
theorem decodeFrom_eq (before cs : List Char) :
    decodeFrom (before ++ cs) (byteLen before) = if EscapesFit cs then some (decoded cs) else none := by
  induction hn : cs.length using Nat.strong_induction_on generalizing before cs with
  | _ n ih =>
    cases cs with
    | nil =>
      have hfits : EscapesFit [] := by
        intro before after heq
        simp at heq
      rw [List.append_nil, decodeFrom_end, if_pos hfits]
      rfl
    | cons c cs =>
      have hwhole : before ++ c :: cs = before ++ [c] ++ cs := by simp
      have hnext := ih cs.length (by rw [← hn]; simp) (before ++ [c]) cs rfl
      by_cases hc : c = '='
      · subst hc
        have hplace : byteLen before + 1 = byteLen (before ++ ['=']) := by
          rw [byteLen_append]
          rfl
        have hplain : (∀ x y rest, cs = x :: y :: rest → fromHex [x, y] = none) →
            (decodeFrom (before ++ '=' :: cs) (byteLen (before ++ ['=']))).map (0x3D :: ·) =
              if EscapesFit cs then some (decoded ('=' :: cs)) else none := by
          intro hno
          rw [hwhole, hnext, decoded_plain hno]
          split <;> rfl
        rw [decodeFrom_escape, hplace, escapesFit_cons]
        simp only [true_imp_iff]
        by_cases htwo : 2 ≤ byteLen cs
        · by_cases hboundary : isCharBoundary cs 2 = true
          · have hfits : EscapeFits cs := fun _ => hboundary
            rw [if_pos htwo, if_pos hboundary]
            simp only [hfits, true_and]
            rcases takeBytes_two htwo hboundary with ⟨x, y, rest, rfl, htake, hx, hy⟩ | ⟨x, rest, rfl, htake, hx⟩
            · rw [htake]
              cases hhex : fromHex [x, y] with
              | none =>
                refine hplain fun x' y' rest' heq => ?_
                obtain ⟨rfl, rfl, -⟩ : x = x' ∧ y = y' ∧ rest = rest' := by simpa using heq
                exact hhex
              | some byte =>
                obtain ⟨-, -, hx', hy'⟩ := fromHex_pair hhex
                have hskip : byteLen before + 3 = byteLen (before ++ ['=', x, y]) := by
                  simp [byteLen, hx, hy]
                  rfl
                have hrest := ih rest.length (by rw [← hn]; simp; omega) (before ++ ['=', x, y]) rest rfl
                rw [List.append_assoc] at hrest
                dsimp only
                rw [hskip, show before ++ '=' :: x :: y :: rest = before ++ (['=', x, y] ++ rest) from rfl, hrest,
                  decoded_escape hhex, escapesFit_cons, escapesFit_cons]
                simp only [hx', hy', false_implies, true_and]
                split <;> rfl
            · rw [htake, fromHex_single hx]
              refine hplain fun x' y' rest' heq => ?_
              obtain ⟨rfl, rfl⟩ : x = x' ∧ rest = y' :: rest' := by simpa using heq
              cases hhex : fromHex [x, y'] with
              | none => rfl
              | some byte =>
                have hone := (fromHex_pair hhex).1
                omega
          · rw [if_pos htwo, if_neg hboundary, if_neg fun h => hboundary (h.1 htwo)]
        · have hfits : EscapeFits cs := fun h => absurd h htwo
          rw [if_neg htwo]
          simp only [hfits, true_and]
          refine hplain fun x y rest heq => absurd ?_ htwo
          have hx := x.utf8Size_pos
          have hy := y.utf8Size_pos
          rw [heq, byteLen_cons, byteLen_cons]
          omega
      · rw [decodeFrom_char before cs hc, hwhole, hnext, decoded_other hc, escapesFit_cons]
        simp only [hc, false_implies, true_and]
        split <;> rfl

/-- A value without escapes that are cut is decoded; any other makes the loop panic. -/
theorem decodeQuotedPrintable_of_fits {value : List Char} (h : EscapesFit value) :
    decodeQuotedPrintable value = some (Rust.fromUtf8Lossy (decoded value)).toList := by
  have hloop := decodeFrom_eq [] value
  rw [List.nil_append, show byteLen [] = 0 from rfl, if_pos h] at hloop
  rw [decodeQuotedPrintable, hloop]
  rfl

theorem decodeQuotedPrintable_isSome {value : List Char} :
    (∃ text, decodeQuotedPrintable value = some text) ↔ EscapesFit value := by
  refine ⟨fun ⟨text, htext⟩ => ?_, fun h => ⟨_, decodeQuotedPrintable_of_fits h⟩⟩
  by_contra hcut
  have hloop := decodeFrom_eq [] value
  rw [List.nil_append, show byteLen [] = 0 from rfl, if_neg hcut] at hloop
  rw [decodeQuotedPrintable, hloop] at htext
  cases htext

end Haruspex.Vcard
