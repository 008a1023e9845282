import Haruspex.Vcard.Printable

/-! What is decoded from a quoted-printable line with soft line breaks. -/
namespace Haruspex.Vcard
open LineEndings (joinCrlf)
open Rust (trim isWhitespace hexDigit utf8 fromUtf8Lossy byteLen)
open Printable (NoBlankAfterSoft)
set_option autoImplicit false

/-! ## The bytes -/

/-- The bytes that a value stands for. -/
def bytesOf (us : List Printable) : List UInt8 := us.flatMap Printable.bytes

theorem bytesOf_cons (u : Printable) (us : List Printable) : bytesOf (u :: us) = u.bytes ++ bytesOf us := rfl

theorem encode_ascii {c : Char} (h : c.toNat < 128) : String.utf8EncodeChar c = [UInt8.ofNat c.toNat] := by
  rcases Rust.encode_cases c with ⟨-, henc⟩ | ⟨hlo, -⟩ | ⟨hlo, -⟩ | ⟨hlo, -⟩
  · exact henc
  all_goals omega

theorem blank_cases {c : Char} (h : blank c = true) : c = ' ' ∨ c = '\t' := of_decide_eq_true h

theorem plain_ascii {c : Char} (h : (Printable.plain c).Valid) : c.toNat < 128 ∧ c ≠ '=' := by
  rcases h with h | ⟨-, hhi, hne⟩
  · rcases blank_cases h with rfl | rfl <;> decide
  · exact ⟨by omega, hne⟩

theorem fromHex_escape {hi lo : Char} {byte : UInt8} (h : (Printable.escape hi lo byte).Valid) :
    fromHex [hi, lo] = some byte := by
  obtain ⟨x, y, hx, hy, hbyte⟩ := h
  have hplus := (hexDigit_plain hx).2.2
  have hx' := (hexDigit_visible hx).2
  have hy' := (hexDigit_visible hy).2
  have hsmall : x * 16 + y < 256 := by omega
  have hof : UInt8.ofNat (x * 16 + y) = byte := by rw [← hbyte, UInt8.ofNat_toNat]
  simp [fromHex, hplus, hx, hy, hsmall, hof]

/-- The first byte is what is decoded first, unless it is a blank that follows a soft line break. -/
theorem take_byte {us : List Printable} {b : UInt8} {bytes : List UInt8} (hvalid : ∀ u ∈ us, u.Valid)
    (h : bytesOf us = b :: bytes) :
    ∃ us', bytesOf us' = bytes ∧ (∀ u ∈ us', u.Valid) ∧ us'.length < us.length ∧
      ((decoded (Printable.joined us) = b :: decoded (Printable.joined us') ∧
          (NoBlankAfterSoft us ↔ NoBlankAfterSoft us')) ∨
        ((b = 0x20 ∨ b = 0x09) ∧ Printable.joined us = '=' :: Printable.joined us' ∧ ¬ NoBlankAfterSoft us)) := by
  induction us with
  | nil => cases h
  | cons u us ih =>
    rw [List.forall_mem_cons] at hvalid
    have hplain : ∀ {c : Char} {rest : List Printable}, (Printable.plain c).Valid →
        bytesOf (.plain c :: rest) = b :: bytes →
          String.utf8EncodeChar c = [b] ∧ bytesOf rest = bytes ∧ decoded (c :: Printable.joined rest) =
            b :: decoded (Printable.joined rest) := by
      intro c rest hc hbytes
      obtain ⟨hascii, hne⟩ := plain_ascii hc
      rw [bytesOf_cons, Printable.bytes, encode_ascii hascii, List.singleton_append] at hbytes
      obtain ⟨rfl, hrest⟩ := List.cons.inj hbytes
      refine ⟨encode_ascii hascii, hrest, ?_⟩
      rw [decoded_other hne, encode_ascii hascii, List.singleton_append]
    cases u with
    | plain c =>
      obtain ⟨-, hrest, hdecoded⟩ := hplain hvalid.1 h
      exact ⟨us, hrest, hvalid.2, by simp, .inl ⟨hdecoded, Iff.rfl⟩⟩
    | escape hi lo byte =>
      obtain ⟨rfl, hrest⟩ := List.cons.inj h
      exact ⟨us, hrest, hvalid.2, by simp, .inl ⟨decoded_escape (fromHex_escape hvalid.1) _, Iff.rfl⟩⟩
    | soft crlf =>
      cases us with
      | nil => cases h
      | cons u us =>
        rw [List.forall_mem_cons] at hvalid
        cases u with
        | plain c =>
          obtain ⟨henc, hrest, hdecoded⟩ := hplain hvalid.2.1 h
          by_cases hc : blank c = true
          · refine ⟨us, hrest, hvalid.2.2, by simp only [List.length_cons]; omega, .inr ⟨?_, ?_, fun hno => ?_⟩⟩
            · rcases blank_cases hc with rfl | rfl
              · exact .inl (List.cons.inj henc).1.symm
              · exact .inr (List.cons.inj henc).1.symm
            · rw [Printable.joined, if_pos hc]
            · rw [hno.1] at hc
              cases hc
          · refine ⟨us, hrest, hvalid.2.2, by simp only [List.length_cons]; omega, .inl ⟨?_, ?_⟩⟩
            · rw [Printable.joined, if_neg hc, hdecoded]
            · rw [NoBlankAfterSoft]
              simp [hc]
        | escape hi lo byte =>
          obtain ⟨us', hrest, hvalid', hlength, hcases⟩ := ih (List.forall_mem_cons.mpr hvalid.2) h
          exact ⟨us', hrest, hvalid', Nat.lt_succ_of_lt hlength, hcases⟩
        | soft crlf' =>
          obtain ⟨us', hrest, hvalid', hlength, hcases⟩ := ih (List.forall_mem_cons.mpr hvalid.2) h
          exact ⟨us', hrest, hvalid', Nat.lt_succ_of_lt hlength, hcases⟩

/-- Bytes that are no blanks are decoded as they are. -/
theorem take_bytes {us : List Printable} {bs bytes : List UInt8} (hbs : ∀ b ∈ bs, b ≠ 0x20 ∧ b ≠ 0x09)
    (hvalid : ∀ u ∈ us, u.Valid) (h : bytesOf us = bs ++ bytes) :
    ∃ us', bytesOf us' = bytes ∧ (∀ u ∈ us', u.Valid) ∧ us'.length + bs.length ≤ us.length ∧
      decoded (Printable.joined us) = bs ++ decoded (Printable.joined us') ∧
      (NoBlankAfterSoft us ↔ NoBlankAfterSoft us') := by
  induction bs generalizing us with
  | nil => exact ⟨us, h, hvalid, Nat.le_refl _, rfl, Iff.rfl⟩
  | cons b bs ih =>
    rw [List.forall_mem_cons] at hbs
    obtain ⟨us1, hbytes, hvalid1, hlength, hcases⟩ := take_byte hvalid h
    rcases hcases with ⟨hdecoded, hno⟩ | ⟨hblank, -⟩
    · obtain ⟨us2, hbytes2, hvalid2, hlength2, hdecoded2, hno2⟩ := ih hbs.2 hvalid1 hbytes
      refine ⟨us2, hbytes2, hvalid2, ?_, ?_, hno.trans hno2⟩
      · rw [List.length_cons]
        omega
      · rw [hdecoded, hdecoded2, List.cons_append]
    · exact absurd hblank (not_or.mpr hbs.1)

/-- So with the first character. -/
theorem take_char {us : List Printable} {c : Char} {text : List Char} (hvalid : ∀ u ∈ us, u.Valid)
    (h : bytesOf us = utf8 (c :: text)) :
    ∃ us', bytesOf us' = utf8 text ∧ (∀ u ∈ us', u.Valid) ∧ us'.length < us.length ∧
      ((decoded (Printable.joined us) = String.utf8EncodeChar c ++ decoded (Printable.joined us') ∧
          (NoBlankAfterSoft us ↔ NoBlankAfterSoft us')) ∨
        (blank c = true ∧ Printable.joined us = '=' :: Printable.joined us' ∧ ¬ NoBlankAfterSoft us)) := by
  rw [Rust.utf8_cons] at h
  by_cases hc : blank c = true
  · have hascii : c.toNat < 128 := by
      rcases blank_cases hc with rfl | rfl <;> decide
    rw [encode_ascii hascii, List.singleton_append] at h
    obtain ⟨us', hbytes, hvalid', hlength, hcases⟩ := take_byte hvalid h
    refine ⟨us', hbytes, hvalid', hlength, ?_⟩
    rw [encode_ascii hascii, List.singleton_append]
    exact hcases.imp id fun hsoft => ⟨hc, hsoft.2⟩
  · have hbs : ∀ b ∈ String.utf8EncodeChar c, b ≠ 0x20 ∧ b ≠ 0x09 := by
      refine fun b hb => ⟨?_, ?_⟩
      · rintro rfl
        have hvalue := (Rust.ascii_of_mem_encode hb (by decide)).2
        have hspace : c = ' ' := Char.toNat_inj.mp hvalue
        rw [hspace] at hc
        exact hc rfl
      · rintro rfl
        have hvalue := (Rust.ascii_of_mem_encode hb (by decide)).2
        have htab : c = '\t' := Char.toNat_inj.mp hvalue
        rw [htab] at hc
        exact hc rfl
    obtain ⟨us', hbytes, hvalid', hlength, hdecoded, hno⟩ := take_bytes hbs hvalid h
    have hpos : 0 < (String.utf8EncodeChar c).length := by
      rw [String.length_utf8EncodeChar]
      exact c.utf8Size_pos
    exact ⟨us', hbytes, hvalid', by omega, .inl ⟨hdecoded, hno⟩⟩

/-- What is left of a value that starts with a plain character. -/
theorem take_plain {us : List Printable} {x : Char} {cs : List Char} (hvalid : ∀ u ∈ us, u.Valid) (hx : x ≠ '=')
    (h : Printable.joined us = x :: cs) :
    ∃ us', Printable.joined us' = cs ∧ bytesOf us = String.utf8EncodeChar x ++ bytesOf us' ∧
      (∀ u ∈ us', u.Valid) ∧ us'.length < us.length ∧ x.toNat < 128 := by
  induction us with
  | nil => cases h
  | cons u us ih =>
    rw [List.forall_mem_cons] at hvalid
    cases u with
    | plain c =>
      obtain ⟨rfl, hcs⟩ := List.cons.inj h
      exact ⟨us, hcs, rfl, hvalid.2, by simp, (plain_ascii hvalid.1).1⟩
    | escape hi lo byte => exact absurd (List.cons.inj h).1.symm hx
    | soft crlf =>
      cases us with
      | nil => cases h
      | cons u us =>
        rw [List.forall_mem_cons] at hvalid
        cases u with
        | plain c =>
          rw [Printable.joined] at h
          by_cases hc : blank c = true
          · rw [if_pos hc] at h
            exact absurd (List.cons.inj h).1.symm hx
          · rw [if_neg hc] at h
            obtain ⟨rfl, hcs⟩ := List.cons.inj h
            exact ⟨us, hcs, rfl, hvalid.2.2, by simp only [List.length_cons]; omega, (plain_ascii hvalid.2.1).1⟩
        | escape hi lo byte => exact absurd (List.cons.inj h).1.symm hx
        | soft crlf' =>
          obtain ⟨us', hcs, hbytes, hvalid', hlength, hascii⟩ := ih (List.forall_mem_cons.mpr hvalid.2) h
          exact ⟨us', hcs, hbytes, hvalid', Nat.lt_succ_of_lt hlength, hascii⟩

theorem head_of_utf8 {x : Char} {text : List Char} {bytes : List UInt8} (hx : x.toNat < 128)
    (h : utf8 text = String.utf8EncodeChar x ++ bytes) : ∃ rest, text = x :: rest ∧ utf8 rest = bytes := by
  rw [encode_ascii hx, List.singleton_append] at h
  cases text with
  | nil => cases h
  | cons c text =>
    have hvalue : (UInt8.ofNat x.toNat).toNat = x.toNat := Rust.toNat_byte (by omega)
    have hmem : UInt8.ofNat x.toNat ∈ String.utf8EncodeChar c := by
      rw [Rust.utf8_cons] at h
      cases henc : String.utf8EncodeChar c with
      | nil =>
        have hlength := congrArg List.length henc
        rw [String.length_utf8EncodeChar] at hlength
        exact absurd hlength c.utf8Size_pos.ne'
      | cons b bs =>
        rw [henc, List.cons_append] at h
        rw [(List.cons.inj h).1]
        exact List.mem_cons_self
    have hascii : UInt8.ofNat x.toNat < 0x80 := by
      rw [Rust.lt_ascii_iff, hvalue]
      exact hx
    obtain ⟨henc, hc⟩ := Rust.ascii_of_mem_encode hmem hascii
    rw [Rust.utf8_cons, henc, List.singleton_append] at h
    obtain rfl : c = x := Char.toNat_inj.mp (hc.trans hvalue)
    exact ⟨text, rfl, (List.cons.inj h).2⟩

/-! ## The text -/

theorem soft_only {us : List Printable} (h : bytesOf us = []) : Printable.joined us = [] ∧ NoBlankAfterSoft us := by
  induction us with
  | nil => exact ⟨rfl, trivial⟩
  | cons u us ih =>
    rw [bytesOf_cons, List.append_eq_nil_iff] at h
    cases u with
    | plain c =>
      have hlength := congrArg List.length h.1
      rw [Printable.bytes, String.length_utf8EncodeChar] at hlength
      exact absurd hlength c.utf8Size_pos.ne'
    | escape hi lo byte => cases h.1
    | soft crlf =>
      have hrest := ih h.2
      cases us with
      | nil => exact hrest
      | cons u us =>
        cases u with
        | plain c =>
          have hlength := congrArg List.length (List.append_eq_nil_iff.mp h.2).1
          rw [Printable.bytes, String.length_utf8EncodeChar] at hlength
          exact absurd hlength c.utf8Size_pos.ne'
        | escape hi lo byte => exact hrest
        | soft crlf' => exact hrest

/-- The text that is read of a value; it is never longer than the one that is written. -/
theorem lossy_joined {us : List Printable} {text : List Char} (hvalid : ∀ u ∈ us, u.Valid)
    (h : bytesOf us = utf8 text) :
    (fromUtf8Lossy (decoded (Printable.joined us))).toList.length ≤ text.length ∧
      ((fromUtf8Lossy (decoded (Printable.joined us))).toList = text ↔ NoBlankAfterSoft us) := by
  induction hn : us.length using Nat.strong_induction_on generalizing us text with
  | _ n ih =>
    cases text with
    | nil =>
      obtain ⟨hjoined, hno⟩ := soft_only h
      have hempty : (fromUtf8Lossy (decoded [])).toList = [] := by
        simp [decoded, fromUtf8Lossy, Rust.utf8Chunks_nil]
      rw [hjoined, hempty]
      exact ⟨Nat.le_refl _, fun _ => hno, fun _ => rfl⟩
    | cons c text =>
      obtain ⟨us1, hbytes, hvalid1, hlength, hcases⟩ := take_char hvalid h
      obtain ⟨hle, hiff⟩ := ih us1.length (by omega) hvalid1 hbytes rfl
      rcases hcases with ⟨hdecoded, hno⟩ | ⟨hblank, hjoined, hno⟩
      · rw [hdecoded, Rust.fromUtf8Lossy_encode, List.length_cons, List.length_cons]
        refine ⟨by omega, ?_⟩
        rw [hno, ← hiff]
        simp
      · by_cases hhex : ∃ x y cs byte, Printable.joined us1 = x :: y :: cs ∧ fromHex [x, y] = some byte
        · -- two characters are taken for an escape's, so that the text is shorter
          obtain ⟨x, y, cs, byte, hcs, hbyte⟩ := hhex
          obtain ⟨-, -, hx, hy⟩ := fromHex_pair hbyte
          obtain ⟨us2, hcs2, hbytes2, hvalid2, hlength2, hascii2⟩ := take_plain hvalid1 hx hcs
          obtain ⟨us3, hcs3, hbytes3, hvalid3, hlength3, hascii3⟩ := take_plain hvalid2 hy hcs2
          obtain ⟨text2, rfl, htext2⟩ := head_of_utf8 hascii2 (hbytes.symm.trans hbytes2)
          obtain ⟨text3, rfl, htext3⟩ := head_of_utf8 hascii3 (htext2.trans hbytes3)
          have hle3 := (ih us3.length (by omega) hvalid3 htext3.symm rfl).1
          have hcons := Rust.length_fromUtf8Lossy_cons byte (decoded (Printable.joined us3))
          rw [hjoined, hcs, decoded_escape hbyte, ← hcs3]
          have hshort : (fromUtf8Lossy (byte :: decoded (Printable.joined us3))).toList.length <
              (c :: x :: y :: text3).length := by
            simp only [List.length_cons]
            omega
          refine ⟨Nat.le_of_lt hshort, fun heq => ?_, fun hyes => absurd hyes hno⟩
          rw [heq] at hshort
          exact absurd hshort (Nat.lt_irrefl _)
        · -- the equals sign stands for itself
          have hplain : ∀ x y rest, Printable.joined us1 = x :: y :: rest → fromHex [x, y] = none := by
            intro x y rest heq
            cases hbyte : fromHex [x, y] with
            | none => rfl
            | some byte => exact absurd ⟨x, y, rest, byte, heq, hbyte⟩ hhex
          have hequals : String.utf8EncodeChar '=' = [0x3D] := rfl
          rw [hjoined, decoded_plain hplain, ← List.singleton_append, ← hequals, Rust.fromUtf8Lossy_encode]
          refine ⟨by simp only [List.length_cons]; omega, fun heq => ?_, fun hyes => absurd hyes hno⟩
          rw [← (List.cons.inj heq).1] at hblank
          cases hblank

/-! ## The line -/

theorem joined_ascii {us : List Printable} (hvalid : ∀ u ∈ us, u.Valid) :
    ∀ c ∈ Printable.joined us, c.utf8Size = 1 := by
  have hplain : ∀ {c : Char}, (Printable.plain c).Valid → c.utf8Size = 1 := by
    intro c hc
    have hascii := (plain_ascii hc).1
    rw [Char.utf8Size_eq_one_iff, UInt32.le_iff_toNat_le]
    change c.toNat ≤ 127
    omega
  have hequals : '='.utf8Size = 1 := rfl
  induction us with
  | nil => exact List.forall_mem_nil _
  | cons u us ih =>
    rw [List.forall_mem_cons] at hvalid
    have hrest := ih hvalid.2
    cases u with
    | plain c =>
      rw [Printable.joined, List.forall_mem_cons]
      exact ⟨hplain hvalid.1, hrest⟩
    | escape hi lo byte =>
      obtain ⟨x, y, hx, hy, -⟩ := hvalid.1
      rw [Printable.joined, List.forall_mem_cons, List.forall_mem_cons, List.forall_mem_cons]
      exact ⟨hequals, (hexDigit_plain hx).1, (hexDigit_plain hy).1, hrest⟩
    | soft crlf =>
      cases us with
      | nil => exact List.forall_mem_nil _
      | cons u us =>
        cases u with
        | plain c =>
          rw [Printable.joined, List.forall_mem_cons] at hrest
          rw [Printable.joined]
          split
          · rw [List.forall_mem_cons]
            exact ⟨hequals, hrest.2⟩
          · rw [List.forall_mem_cons]
            exact hrest
        | escape hi lo byte => exact hrest
        | soft crlf' => exact hrest

/-- No escape is cut in a text of characters of one byte. -/
theorem escapesFit_ascii {value : List Char} (h : ∀ c ∈ value, c.utf8Size = 1) : EscapesFit value := by
  induction value with
  | nil =>
    intro before after heq
    simp at heq
  | cons c cs ih =>
    rw [List.forall_mem_cons] at h
    rw [escapesFit_cons]
    refine ⟨fun _ htwo => ?_, ih h.2⟩
    rcases cs with _ | ⟨x, _ | ⟨y, rest⟩⟩
    · simp [byteLen] at htwo
    · simp [byteLen, h.2 x (by simp)] at htwo
    · have hone := isCharBoundary_cons x (y :: rest) 1
      have htwo := isCharBoundary_cons y rest 0
      rw [h.2 x (by simp)] at hone
      rw [h.2 y (by simp)] at htwo
      rw [hone, htwo, isCharBoundary_zero]

theorem decodeValue_joined {line : Line} {us : List Printable} (hvalid : ∀ u ∈ us, u.Valid)
    (hparam : line.hasParamWord "ENCODING" "QUOTED-PRINTABLE" = true) (hvalue : line.value = Printable.joined us) :
    decodeValue line = some (fromUtf8Lossy (decoded (Printable.joined us))).toList := by
  rw [decodeValue, if_pos hparam, hvalue]
  exact decodeQuotedPrintable_of_fits (escapesFit_ascii (joined_ascii hvalid))

theorem hasParamWord_declared {params : List (List Char)} {name value p : List Char} (hp : p ∈ params)
    (h : Declares p) :
    ({ name := name, params := (params.filter fun p => trim p ≠ []).map parseParam, value := value } : Line).hasParamWord
      "ENCODING" "QUOTED-PRINTABLE" = true := by
  obtain ⟨key, word, hparse, hkey, hword⟩ := parseParam_declares h
  have hvisible : trim p ≠ [] := by
    have hletters := visible_of_lower h (by decide +kernel)
    rw [Rust.trim_eq_self hletters]
    rintro rfl
    have hlength := congrArg List.length h
    revert hlength
    decide +kernel
  refine List.any_eq_true.mpr ⟨(key, [word]), ?_, ?_⟩
  · rw [← hparse]
    exact List.mem_map_of_mem (List.mem_filter.mpr ⟨hp, decide_eq_true hvisible⟩)
  · simp [hkey, hword]

/-- One line is read, and the text is decoded from it. -/
def DecodesTo (name text card : List Char) : Prop :=
  ∃ line, readLines card = some [line] ∧ line.name = name ∧ decodeValue line = some text

/-- A quoted-printable line is read back when no line of it goes on with a blank. -/
theorem decodesTo_iff {name text : List Char} {params : List (List Char)} {us : List Printable} (hname : IsName name)
    (hparams : ∀ p ∈ params, IsParam p) (hdeclared : ∃ p ∈ params, Declares p) (hvalid : ∀ u ∈ us, u.Valid)
    (hbytes : bytesOf us = utf8 text) :
    DecodesTo name text (printableLine name params us) ↔ NoBlankAfterSoft us := by
  obtain ⟨p, hp, hdeclares⟩ := hdeclared
  have hclosed : ∀ p ∈ params, Closed p := by
    refine fun p hp => Bare.closed fun c hc hmem => hparams p hp c hc ?_
    simp only [List.mem_cons, List.not_mem_nil, or_false] at hmem
    rcases hmem with rfl | rfl | rfl <;> simp
  have hhead (c : Char) (hc : c = ':' ∨ c = '\n') : c ∉ headText name params := by
    rw [headText, List.mem_append, List.mem_flatMap]
    rintro (hmem | ⟨p, hp, hmem⟩)
    · rcases hc with rfl | rfl
      · exact (hname.2 _ hmem).2 (by simp)
      · cases (hname.2 _ hmem).1
    · rcases List.mem_cons.mp hmem with rfl | hmem
      · rcases hc with hc | hc <;> cases hc
      · refine hparams p hp _ hmem ?_
        rcases hc with rfl | rfl <;> simp
  have hstart : '\n' ∉ headText name params ++ [':'] := by simp [hhead]
  obtain ⟨c, hc⟩ := List.exists_mem_of_ne_nil name hname.1
  have hvisible : ∃ c ∈ headText name params ++ [':'], isWhitespace c = false :=
    ⟨c, by simp [headText, hc], (hname.2 c hc).1⟩
  have hfold := @foldl_softLines _ (quoted_head (hhead ':' (.inl rfl)) (declares_within hp hdeclares)) us [] hvisible
  have hlines : linesOf (printableLine name params us) =
      [{ name := name, params := (params.filter fun p => trim p ≠ []).map parseParam,
         value := Printable.joined us }] := by
    have htext : printableLine name params us = headText name params ++ [':'] ++ written us := by
      simp [printableLine]
    have hof := @lineOf_head [] _ (Printable.joined us) _ (List.forall_mem_nil _) hname hclosed
    rw [List.append_nil] at hfold
    rw [linesOf, htext, softLines_eq hstart hvalid, hfold, List.append_assoc, List.singleton_append,
      List.filterMap_cons, ← List.nil_append (headText name params ++ ':' :: Printable.joined us), hof]
    rfl
  have hdecode := decodeValue_joined hvalid (@hasParamWord_declared _ name (Printable.joined us) _ hp hdeclares) rfl
  rw [← (lossy_joined hvalid hbytes).2]
  constructor
  · rintro ⟨line, hread, -, htext⟩
    rw [readLines_eq, hlines, Option.some_inj] at hread
    rw [← (List.cons.inj hread).1, hdecode] at htext
    exact Option.some.inj htext
  · intro htext
    refine ⟨_, by rw [readLines_eq, hlines], rfl, ?_⟩
    rw [hdecode, htext]

/-- Values survive the wire when they have a field and no return is lost, and when no line of a quoted-printable
value goes on with a blank. -/
theorem values_survive {name : List Char} (hname : IsName name) :
    (∀ (params : List TypeParam) (fields : List (List Char)) (first : List Char) (folds : List Fold),
      (∀ p ∈ params, p.Valid) → unfolded first folds = contentLine name params fields →
        (ReadBack name params fields (folded first folds) ↔ fields ≠ [] ∧ NoReturnBefore first folds)) ∧
    ∀ (text : List Char) (params : List (List Char)) (us : List Printable),
      (∀ p ∈ params, IsParam p) → (∃ p ∈ params, Declares p) → (∀ u ∈ us, u.Valid) → bytesOf us = utf8 text →
        (DecodesTo name text (printableLine name params us) ↔ NoBlankAfterSoft us) :=
  ⟨fun _ _ _ _ hparams hline => readBack_iff hname hparams hline,
    fun _ _ _ hparams hdeclared hvalid hbytes => decodesTo_iff hname hparams hdeclared hvalid hbytes⟩

/-- A field with both kinds of separators in it, folded inside an escape. -/
theorem values_survive_folded :
    ReadBack "N".toList [.bare "HOME".toList] [";,".toList, "\n".toList]
      (folded "N;HOME:\\".toList [⟨true, false, ";\\,;\\".toList⟩, ⟨false, true, "n".toList⟩]) := by
  have hname : IsName "N".toList := ⟨by decide +kernel, by simp; decide⟩
  have hword : IsWord "HOME".toList := ⟨by decide +kernel, by simp; decide⟩
  have hparam : (TypeParam.bare "HOME".toList).Valid := ⟨hword, by decide +kernel⟩
  refine ((values_survive hname).1 _ _ _ _ (by simpa using hparam) (by decide +kernel)).mpr ⟨by simp, ?_⟩
  exact ⟨fun h => (by cases h), fun _ => (by decide +kernel), trivial⟩

/-- A line of a quoted-printable value that goes on with a blank. -/
def broken : List Printable :=
  [.plain 'J', .plain 'o', .plain 's', .escape 'C' '3' 0xC3, .escape 'A' '9' 0xA9, .soft true, .plain ' ',
    .plain 'G']

theorem blank_lost :
    ¬ DecodesTo "FN".toList "José G".toList "FN;ENCODING=QUOTED-PRINTABLE:Jos=C3=A9=\r\n G".toList := by
  have htext : "FN;ENCODING=QUOTED-PRINTABLE:Jos=C3=A9=\r\n G".toList =
      printableLine "FN".toList ["ENCODING=QUOTED-PRINTABLE".toList] broken := by decide +kernel
  have hname : IsName "FN".toList := ⟨by decide +kernel, by simp; decide⟩
  have hvalid : ∀ u ∈ broken, u.Valid := by
    simp only [broken, List.forall_mem_cons, Printable.Valid]
    refine ⟨by decide, by decide, by decide, ⟨12, 3, by decide⟩, ⟨10, 9, by decide⟩, trivial, by decide, by decide, ?_⟩
    exact List.forall_mem_nil _
  have hbytes : bytesOf broken = utf8 "José G".toList := by decide +kernel
  have hparams : ∀ p ∈ ["ENCODING=QUOTED-PRINTABLE".toList], IsParam p := by
    have hplain : ("ENCODING=QUOTED-PRINTABLE".toList.all fun c => !([':', ';', '"', '\n'].contains c)) = true := by
      decide +kernel
    intro p hp c hc hmem
    rw [List.mem_singleton.mp hp] at hc
    have hsep := List.all_eq_true.mp hplain c hc
    rw [List.contains_iff_mem.mpr hmem] at hsep
    cases hsep
  have hdeclared : ∃ p ∈ ["ENCODING=QUOTED-PRINTABLE".toList], Declares p :=
    ⟨_, List.mem_singleton_self _, by unfold Declares; decide +kernel⟩
  rw [htext, decodesTo_iff hname hparams hdeclared hvalid hbytes]
  intro hno
  cases hno.1

end Haruspex.Vcard
