import Haruspex.Vcard.Decode
import Haruspex.Vcard.Unfold

/-! Quoted-printable values with soft line breaks, as they are written and as they are joined. -/
namespace Haruspex.Vcard
open LineEndings (joinCrlf)
open Rust (trim isWhitespace hexDigit utf8)
set_option autoImplicit false

/-! ## What is written -/

/-- What a quoted-printable value is made of: plain characters, bytes in hexadecimal and soft line breaks. -/
inductive Printable
  | plain (c : Char)
  | escape (hi lo : Char) (byte : UInt8)
  | soft (crlf : Bool)

namespace Printable

/-- A plain character is a printable one other than the equals sign, or a blank. -/
def Valid : Printable → Prop
  | plain c => blank c = true ∨ (33 ≤ c.toNat ∧ c.toNat ≤ 126 ∧ c ≠ '=')
  | escape hi lo byte => ∃ h l, hexDigit hi = some h ∧ hexDigit lo = some l ∧ byte.toNat = h * 16 + l
  | soft _ => True

def text : Printable → List Char
  | plain c => [c]
  | escape hi lo _ => ['=', hi, lo]
  | soft crlf => '=' :: if crlf then ['\r', '\n'] else ['\n']

/-- The bytes that are stood for. -/
def bytes : Printable → List UInt8
  | plain c => String.utf8EncodeChar c
  | escape _ _ byte => [byte]
  | soft _ => []

/-- What is left when the lines are joined: a soft line break goes, but a line that starts with a blank is
taken for a folded one, and the equals sign stays in the blank's place. -/
def joined : List Printable → List Char
  | [] => []
  | plain c :: us => c :: joined us
  | escape hi lo _ :: us => '=' :: hi :: lo :: joined us
  | soft _ :: plain c :: us => if blank c = true then '=' :: joined us else c :: joined us
  | soft _ :: us => joined us

/-- No line goes on with a blank after a soft line break. -/
def NoBlankAfterSoft : List Printable → Prop
  | [] => True
  | soft _ :: plain c :: us => blank c = false ∧ NoBlankAfterSoft us
  | _ :: us => NoBlankAfterSoft us

end Printable

open Printable (NoBlankAfterSoft)

def written (us : List Printable) : List Char := us.flatMap Printable.text

/-- A parameter without anything that would end it. -/
def IsParam (p : List Char) : Prop := ∀ c ∈ p, c ∉ [':', ';', '"', '\n']

/-- The parameter that says how the value is encoded. -/
def Declares (p : List Char) : Prop := lower p = "encoding=quoted-printable".toList

def printableLine (name : List Char) (params : List (List Char)) (us : List Printable) : List Char :=
  headText name params ++ ':' :: written us

/-! ## The head -/

theorem toUpper_toLower (c : Char) : c.toLower.toUpper = c.toUpper := by
  by_cases h : c.toNat < 128
  · have hascii : ∀ n < 128, (Char.ofNat n).toLower.toUpper = (Char.ofNat n).toUpper := by decide +kernel
    rw [← Char.ofNat_toNat c]
    exact hascii c.toNat h
  · have hlower : c.toLower = c := by
      refine dif_neg fun hupper => h ?_
      have hle := UInt32.le_iff_toNat_le.mp hupper.2
      change c.toNat ≤ 90 at hle
      omega
    rw [hlower]

/-- White space stays when letters are lowered. -/
theorem toLower_white {c : Char} (h : isWhitespace c = true) : c.toLower = c := by
  refine dif_neg fun hupper => ?_
  have hle := UInt32.le_iff_toNat_le.mp hupper.1
  have hle' := UInt32.le_iff_toNat_le.mp hupper.2
  change 65 ≤ c.toNat at hle
  change c.toNat ≤ 90 at hle'
  simp only [isWhitespace, Bool.or_eq_true, Bool.and_eq_true, decide_eq_true_eq, List.contains_eq_mem,
    List.mem_cons, List.not_mem_nil, or_false] at h
  omega

theorem visible_of_lower {cs : List Char} {word : String} (h : lower cs = word.toList)
    (hword : word.toList.all (fun c => !isWhitespace c) = true) : ∀ c ∈ cs, isWhitespace c = false := by
  intro c hc
  by_contra hwhite
  rw [Bool.not_eq_false] at hwhite
  have hmem : c ∈ word.toList := by
    rw [← h, ← toLower_white hwhite]
    exact List.mem_map_of_mem hc
  have hvisible := List.all_eq_true.mp hword c hmem
  rw [hwhite] at hvisible
  cases hvisible

theorem not_mem_of_lower {cs : List Char} {word : String} {c : Char} (h : lower cs = word.toList)
    (hc : c.toLower ∉ word.toList) : c ∉ cs := fun hmem => hc (h ▸ List.mem_map_of_mem hmem)

theorem Declares.split {p : List Char} (h : Declares p) :
    ∃ key value, p = key ++ '=' :: value ∧ lower key = "encoding".toList ∧
      lower value = "quoted-printable".toList := by
  have hword : "encoding=quoted-printable".toList = "encoding".toList ++ '=' :: "quoted-printable".toList := by
    decide +kernel
  rw [Declares, hword] at h
  obtain ⟨key, rest, rfl, hkey, hrest⟩ := List.map_eq_append_iff.mp h
  obtain ⟨c, value, rfl, hc, hvalue⟩ := List.map_eq_cons_iff.mp hrest
  have hequals : c = '=' := by
    by_cases hupper : c.isUpper = true
    · have hbounds : 65 ≤ c.toNat ∧ c.toNat ≤ 90 := by
        have hval : 'A'.val ≤ c.val ∧ c.val ≤ 'Z'.val := of_decide_eq_true hupper
        exact ⟨UInt32.le_iff_toNat_le.mp hval.1, UInt32.le_iff_toNat_le.mp hval.2⟩
      have hascii : ∀ n < 26, (Char.ofNat (n + 65)).toLower ≠ '=' := by decide +kernel
      have hne := hascii (c.toNat - 65) (by omega)
      rw [show c.toNat - 65 + 65 = c.toNat by omega, Char.ofNat_toNat] at hne
      exact absurd hc hne
    · have hlower : c.toLower = c := by
        exact dif_neg fun h => hupper (decide_eq_true h)
      rw [← hlower, hc]
  rw [hequals]
  exact ⟨key, value, rfl, hkey, hvalue⟩

theorem parseParam_declares {p : List Char} (h : Declares p) :
    ∃ key value, parseParam p = (key, [value]) ∧ sameWord key "ENCODING" = true ∧
      sameWord value "QUOTED-PRINTABLE" = true := by
  obtain ⟨key, value, rfl, hkey, hvalue⟩ := h.split
  have hkeyVisible := visible_of_lower hkey (by decide +kernel)
  have hvalueVisible := visible_of_lower hvalue (by decide +kernel)
  have hequals : '=' ∉ key := not_mem_of_lower hkey (by decide +kernel)
  have hcomma : ',' ∉ value := not_mem_of_lower hvalue (by decide +kernel)
  have hquote : '"' ∉ value := not_mem_of_lower hvalue (by decide +kernel)
  have hsplit : splitOnce '=' (key ++ '=' :: value) = some (key, value) := by
    have hplain : ∀ c ∈ key, decide (c ≠ '=') = true := by
      intro c hc
      exact decide_eq_true fun heq => hequals (heq ▸ hc)
    rw [splitOnce, List.dropWhile_append_of_pos hplain, List.dropWhile_cons_of_neg (by simp),
      List.takeWhile_append_of_pos hplain, List.takeWhile_cons_of_neg (by simp), List.append_nil]
  have hclean : clean value = value := by
    have hquotes := @clean_quotes [] [] value (List.forall_mem_nil _) (List.forall_mem_nil _)
      fun c hc => ⟨hvalueVisible c hc, fun heq => hquote (heq ▸ hc)⟩
    rwa [List.nil_append, List.append_nil] at hquotes
  have hne : value ≠ [] := by
    rintro rfl
    have hlength := congrArg List.length hvalue
    revert hlength
    decide +kernel
  refine ⟨key, value, ?_, ?_, ?_⟩
  · have hvalues : ((value.splitOn ',').map clean).filter (· ≠ []) = [value] := by
      rw [List.splitOn_eq_singleton hcomma, List.map_singleton, hclean,
        List.filter_cons_of_pos (by simpa using hne), List.filter_nil]
    rw [parseParam, hsplit]
    dsimp only
    rw [Rust.trim_eq_self hkeyVisible]
    exact congrArg (Prod.mk key) hvalues
  · have hword : lower "ENCODING".toList = "encoding".toList := by decide +kernel
    exact decide_eq_true (hkey.trans hword.symm)
  · have hword : lower "QUOTED-PRINTABLE".toList = "quoted-printable".toList := by decide +kernel
    exact decide_eq_true (hvalue.trans hword.symm)

theorem declares_within {name p : List Char} {params : List (List Char)} (hp : p ∈ params) (h : Declares p) :
    "QUOTED-PRINTABLE".toList <:+: upper (headText name params) := by
  obtain ⟨key, value, rfl, -, hvalue⟩ := h.split
  obtain ⟨before, after, rfl⟩ := List.append_of_mem hp
  have hupper : upper value = "QUOTED-PRINTABLE".toList := by
    have hword : upper "quoted-printable".toList = "QUOTED-PRINTABLE".toList := by decide +kernel
    rw [← hword, ← hvalue, upper, upper, lower, List.map_map]
    exact List.map_congr_left fun c _ => (toUpper_toLower c).symm
  refine ⟨upper (name ++ (before.flatMap fun p => ';' :: p) ++ ';' :: key ++ ['=']),
    upper (after.flatMap fun p => ';' :: p), ?_⟩
  rw [← hupper]
  simp [upper, headText]

/-! ## Joining -/

/-- The lines of a value as they stand, the first of them begun. -/
def softLines (start : List Char) : List Printable → List (List Char)
  | [] => [start]
  | .plain c :: us => softLines (start ++ [c]) us
  | .escape hi lo _ :: us => softLines (start ++ ['=', hi, lo]) us
  | .soft _ :: us => (start ++ ['=']) :: softLines [] us

theorem hexDigit_visible {c : Char} {n : ℕ} (h : hexDigit c = some n) : c ≠ '\n' ∧ n < 16 := by
  unfold hexDigit at h
  split at h
  · rename_i hdigit
    simp only [Char.isDigit, Bool.and_eq_true, decide_eq_true_eq, UInt32.le_iff_toNat_le] at hdigit
    change 48 ≤ c.toNat ∧ c.toNat ≤ 57 at hdigit
    change some (c.toNat - 48) = some n at h
    rw [Option.some_inj] at h
    refine ⟨?_, by omega⟩
    rintro rfl
    simp at hdigit
  · split at h
    · rename_i hlow
      simp only [Char.le_def, UInt32.le_iff_toNat_le] at hlow
      change 97 ≤ c.toNat ∧ c.toNat ≤ 102 at hlow
      change some (c.toNat - 97 + 10) = some n at h
      rw [Option.some_inj] at h
      refine ⟨?_, by omega⟩
      rintro rfl
      simp at hlow
    · split at h
      · rename_i hup
        simp only [Char.le_def, UInt32.le_iff_toNat_le] at hup
        change 65 ≤ c.toNat ∧ c.toNat ≤ 70 at hup
        change some (c.toNat - 65 + 10) = some n at h
        rw [Option.some_inj] at h
        refine ⟨?_, by omega⟩
        rintro rfl
        simp at hup
      · cases h

theorem softLines_eq {start : List Char} {us : List Printable} (hstart : '\n' ∉ start)
    (h : ∀ u ∈ us, u.Valid) : (joinCrlf (start ++ written us)).splitOn '\n' = softLines start us := by
  induction us generalizing start with
  | nil =>
    rw [written, List.flatMap_nil, List.append_nil, joinCrlf_plain hstart, List.splitOn_eq_singleton hstart]
    rfl
  | cons u us ih =>
    rw [List.forall_mem_cons] at h
    cases u with
    | plain c =>
      have hc : '\n' ≠ c := by
        rintro rfl
        have hplain := h.1
        simp [Printable.Valid, blank] at hplain
      have hrest := @ih (start ++ [c]) (by simp [hstart, hc]) h.2
      rw [List.append_assoc] at hrest
      exact hrest
    | escape hi lo byte =>
      obtain ⟨x, y, hx, hy, -⟩ := h.1
      have hhi := (hexDigit_visible hx).1.symm
      have hlo := (hexDigit_visible hy).1.symm
      have hrest := @ih (start ++ ['=', hi, lo]) (by simp [hstart, hhi, hlo]) h.2
      rw [List.append_assoc] at hrest
      exact hrest
    | soft crlf =>
      have hrest := @ih [] (List.not_mem_nil) h.2
      rw [List.nil_append] at hrest
      have hequals : '\n' ∉ start ++ ['='] := by simp [hstart]
      cases crlf
      · have htext : start ++ written (.soft false :: us) = start ++ ['='] ++ '\n' :: written us := by
          simp [written, Printable.text]
        have hchop : chop (start ++ ['=']) = start ++ ['='] := by simp [chop]
        rw [htext, joinCrlf_line hequals, hchop, List.splitOn_append_cons_self_of_not_mem hequals, hrest]
        rfl
      · have htext : start ++ written (.soft true :: us) = start ++ ['='] ++ ['\r'] ++ '\n' :: written us := by
          simp [written, Printable.text]
        have hreturn : '\n' ∉ start ++ ['='] ++ ['\r'] := by simp [hstart]
        have hchop : chop (start ++ ['='] ++ ['\r']) = start ++ ['='] := by simp [chop]
        rw [htext, joinCrlf_line hreturn, hchop, List.splitOn_append_cons_self_of_not_mem hequals, hrest]
        rfl

theorem quoted_head {head : List Char} (hcolon : ':' ∉ head) (hquoted : "QUOTED-PRINTABLE".toList <:+: upper head)
    (value : List Char) : quoted (head ++ [':'] ++ value) = true := by
  have hplain : ∀ c ∈ head, decide (c ≠ ':') = true := by
    intro c hc
    exact decide_eq_true fun heq => hcolon (heq ▸ hc)
  have hhead : (head ++ [':'] ++ value).takeWhile (· ≠ ':') = head := by
    rw [List.append_assoc, List.takeWhile_append_of_pos hplain, List.singleton_append,
      List.takeWhile_cons_of_neg (by simp), List.append_nil]
  refine decide_eq_true ?_
  rw [hhead]
  exact hquoted

/-- What a line adds to one that ends in a soft line break. -/
def softStep (line : List Char) : List Char → List Char
  | [] => line
  | c :: cs => if blank c = true then line ++ '=' :: cs else line ++ c :: cs

theorem joinStep_soft {line : List Char} (hquoted : quoted (line ++ ['=']) = true) (raw : List Char) :
    joinStep [line ++ ['=']] raw = [softStep line raw] := by
  cases raw with
  | nil => simp [joinStep, hquoted, softStep]
  | cons c cs =>
    by_cases hc : blank c = true
    · simp [joinStep, softStep, hc]
    · simp [joinStep, softStep, hc, hquoted]

theorem softStep_append (line : List Char) {raw : List Char} (hraw : raw ≠ []) (more : List Char) :
    softStep line (raw ++ more) = softStep line raw ++ more := by
  cases raw with
  | nil => exact absurd rfl hraw
  | cons c cs =>
    rw [List.cons_append, softStep, softStep]
    split <;> simp

/-- It does not matter how the lines of a value are ended. -/
theorem joined_soft (crlf : Bool) (us : List Printable) :
    Printable.joined (.soft crlf :: us) = Printable.joined (.soft false :: us) := by
  cases us with
  | nil => rfl
  | cons u us => cases u <;> rfl

section Joining

variable {head : List Char} (hquoted : ∀ value, quoted (head ++ value) = true)
include hquoted

/-- The lines after a soft line break, the first of them begun or not. -/
theorem foldl_soft (us : List Printable) (value : List Char) :
    (∀ start, start ≠ [] → (softLines start us).foldl joinStep [head ++ value ++ ['=']] =
      [softStep (head ++ value) start ++ Printable.joined us]) ∧
    (softLines [] us).foldl joinStep [head ++ value ++ ['=']] =
      [head ++ value ++ Printable.joined (.soft false :: us)] := by
  have hsoft (value raw : List Char) : joinStep [head ++ value ++ ['=']] raw = [softStep (head ++ value) raw] := by
    refine joinStep_soft ?_ raw
    rw [List.append_assoc]
    exact hquoted _
  have hequals (value start : List Char) (hstart : start ≠ []) :
      ∃ value', softStep (head ++ value) start = head ++ value' := by
    cases start with
    | nil => exact absurd rfl hstart
    | cons c cs =>
      rw [softStep]
      split
      · exact ⟨value ++ '=' :: cs, by simp⟩
      · exact ⟨value ++ c :: cs, by simp⟩
  induction us generalizing value with
  | nil =>
    constructor
    · intro start _
      rw [softLines, List.foldl_cons, hsoft, List.foldl_nil, Printable.joined, List.append_nil]
    · rw [softLines, List.foldl_cons, hsoft, List.foldl_nil, softStep]
      simp [Printable.joined]
  | cons u us ih =>
    cases u with
    | plain c =>
      refine ⟨fun start hstart => ?_, ?_⟩
      · rw [softLines, (ih value).1 _ (by simp), softStep_append _ hstart, Printable.joined]
        simp
      · rw [softLines, (ih value).1 _ (by simp), Printable.joined, List.nil_append, softStep]
        split <;> simp
    | escape hi lo byte =>
      refine ⟨fun start hstart => ?_, ?_⟩
      · rw [softLines, (ih value).1 _ (by simp), softStep_append _ hstart, Printable.joined]
        simp
      · have hplain : ¬ blank '=' = true := by decide
        rw [softLines, (ih value).1 _ (by simp), List.nil_append, softStep, if_neg hplain]
        simp [Printable.joined]
    | soft crlf =>
      refine ⟨fun start hstart => ?_, ?_⟩
      · obtain ⟨value', hvalue⟩ := hequals value start hstart
        have hstep : joinStep [head ++ value ++ ['=']] (start ++ ['=']) = [head ++ value' ++ ['=']] := by
          rw [hsoft, softStep_append _ hstart, hvalue]
        rw [softLines, List.foldl_cons, hstep, (ih value').2, hvalue, joined_soft crlf, List.append_assoc]
      · have hplain : ¬ blank '=' = true := by decide
        have hstep : joinStep [head ++ value ++ ['=']] ([] ++ ['=']) = [head ++ value ++ ['=']] := by
          rw [hsoft, List.nil_append, softStep, if_neg hplain]
        rw [softLines, List.foldl_cons, hstep, (ih value).2, ← joined_soft crlf]
        rfl

theorem foldl_softLines {us : List Printable} {value : List Char} (hvisible : ∃ c ∈ head, isWhitespace c = false) :
    (softLines (head ++ value) us).foldl joinStep [] = [head ++ value ++ Printable.joined us] := by
  obtain ⟨c, hc, hwhite⟩ := hvisible
  induction us generalizing value with
  | nil =>
    have htrim : trim (head ++ value) ≠ [] := trim_ne_nil (List.mem_append_left _ hc) hwhite
    simp [softLines, joinStep, htrim, Printable.joined]
  | cons u us ih =>
    cases u with
    | plain c =>
      rw [softLines, List.append_assoc, ih, Printable.joined]
      simp
    | escape hi lo byte =>
      rw [softLines, List.append_assoc, ih, Printable.joined]
      simp
    | soft crlf =>
      have htrim : trim (head ++ value ++ ['=']) ≠ [] :=
        trim_ne_nil (List.mem_append_left _ (List.mem_append_left _ hc)) hwhite
      have hstep : joinStep [] (head ++ value ++ ['=']) = [head ++ value ++ ['=']] := by
        simp only [joinStep, List.getLast?_nil, if_neg htrim]
      rw [softLines, List.foldl_cons, hstep, (foldl_soft hquoted us value).2, joined_soft crlf]

end Joining

end Haruspex.Vcard
