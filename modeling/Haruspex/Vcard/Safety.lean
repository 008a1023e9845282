import Haruspex.Vcard.Decode

/-! When an address book is read without a panic, and that one card does not spoil the next. -/
namespace Haruspex.Vcard
open FsTools (isCharBoundary takeBytes lines)
open Rust (trim byteLen byteLen_append)
set_option autoImplicit false

/-! ## Structured values -/

theorem structuredLoop_isSome (cs : List Char) (out : List (List Char)) (escaped : Bool) (h : out ≠ []) :
    ∃ parts, structuredLoop cs out escaped = some parts := by
  induction cs generalizing out escaped with
  | nil => cases escaped <;> exact ⟨out, rfl⟩
  | cons c cs ih =>
    obtain ⟨front, last, rfl⟩ := snoc_of_ne_nil h
    cases escaped
    · unfold structuredLoop
      split
      · exact ih _ true h
      · split
        · exact ih _ false (by simp)
        · rw [onLast_snoc, Option.bind_some]
          exact ih _ false (by simp)
    · unfold structuredLoop
      rw [onLast_snoc, Option.bind_some]
      exact ih _ false (by simp)

theorem splitStructured_isSome (value : List Char) : ∃ parts, splitStructured value = some parts :=
  structuredLoop_isSome value [[]] false (by simp)

/-! ## Birthdays -/

theorem byteLen_digits {cs : List Char} (h : ∀ c ∈ cs, c.isDigit = true) : byteLen cs = cs.length := by
  induction cs with
  | nil => rfl
  | cons c cs ih =>
    rw [List.forall_mem_cons] at h
    have hsize : c.utf8Size = 1 := by
      have hdigit := h.1
      simp only [Char.isDigit, Bool.and_eq_true, decide_eq_true_eq, UInt32.le_iff_toNat_le] at hdigit
      rw [Char.utf8Size_eq_one_iff, UInt32.le_iff_toNat_le]
      have hle : c.val.toNat ≤ 57 := hdigit.2
      change c.val.toNat ≤ 127
      omega
    rw [byteLen_cons, hsize, ih h.2, List.length_cons]
    omega

/-- Digits are sliced anywhere. -/
theorem sliceStr_digits {cs : List Char} (h : ∀ c ∈ cs, c.isDigit = true) {start stop : ℕ} (hle : start ≤ stop)
    (hstop : stop ≤ cs.length) : ∃ piece, sliceStr cs start stop = some piece := by
  have hsplit : cs.take start ++ ((cs.take stop).drop start ++ cs.drop stop) = cs := by
    have hfront : cs.take start = (cs.take stop).take start := by
      rw [List.take_take, Nat.min_eq_left hle]
    rw [hfront, ← List.append_assoc, List.take_append_drop, List.take_append_drop]
  have hslice := sliceStr_eq (cs.take start) ((cs.take stop).drop start) (cs.drop stop)
  rw [hsplit] at hslice
  have hfront : byteLen (cs.take start) = start := by
    rw [byteLen_digits fun c hc => h c (List.mem_of_mem_take hc), List.length_take]
    omega
  have hpiece : byteLen ((cs.take stop).drop start) = stop - start := by
    rw [byteLen_digits fun c hc => h c (List.mem_of_mem_take (List.mem_of_mem_drop hc)), List.length_drop,
      List.length_take]
    omega
  rw [hfront, hpiece, Nat.add_sub_cancel' hle] at hslice
  exact ⟨_, hslice⟩

theorem normalizeBirthday_isSome (value : List Char) : ∃ date, normalizeBirthday value = some date := by
  unfold normalizeBirthday
  dsimp only
  split
  · rename_i h
    generalize (trim value).takeWhile (fun c => decide (c ≠ 'T' ∧ c ≠ 't')) = date at h ⊢
    obtain ⟨hlength, hdigits⟩ := h
    have hall := List.all_eq_true.mp hdigits
    rw [byteLen_digits hall] at hlength
    obtain ⟨year, hyear⟩ := sliceStr_digits hall (show 0 ≤ 4 by decide) (by omega)
    obtain ⟨month, hmonth⟩ := sliceStr_digits hall (show 4 ≤ 6 by decide) (by omega)
    obtain ⟨day, hday⟩ := sliceStr_digits hall (show 6 ≤ 8 by decide) (by omega)
    rw [hyear, hmonth, hday]
    exact ⟨_, rfl⟩
  · exact ⟨_, rfl⟩

/-! ## Cards -/

/-- A line whose value is decoded has escapes that fit. -/
def LineFits (line : Line) : Prop :=
  line.hasParamWord "ENCODING" "QUOTED-PRINTABLE" = true → EscapesFit line.value

theorem decodeValue_isSome {line : Line} : (∃ value, decodeValue line = some value) ↔ LineFits line := by
  unfold decodeValue LineFits
  by_cases h : line.hasParamWord "ENCODING" "QUOTED-PRINTABLE" = true
  · simp only [h, if_true, true_imp_iff]
    exact decodeQuotedPrintable_isSome
  · simp [h]

theorem read_isSome (r : Reading) {line : Line} : (∃ r', r.read line = some r') ↔ LineFits line := by
  rw [← decodeValue_isSome]
  unfold Reading.read
  cases hvalue : decodeValue line with
  | none => simp
  | some value =>
    obtain ⟨parts, hparts⟩ := splitStructured_isSome value
    obtain ⟨date, hdate⟩ := normalizeBirthday_isSome value
    simp only [Option.bind_eq_bind, Option.bind_some, hparts, hdate, Option.some.injEq, exists_eq', iff_true]
    split <;> exact ⟨_, rfl⟩

theorem foldlM_isSome {lines : List Line} (r : Reading) :
    (∃ r', lines.foldlM Reading.read r = some r') ↔ ∀ line ∈ lines, LineFits line := by
  induction lines generalizing r with
  | nil => simp
  | cons line lines ih =>
    rw [List.foldlM_cons, List.forall_mem_cons, ← read_isSome r]
    constructor
    · rintro ⟨r', h⟩
      obtain ⟨next, hnext, hrest⟩ := Option.bind_eq_some_iff.mp h
      exact ⟨⟨next, hnext⟩, (ih next).mp ⟨r', hrest⟩⟩
    · rintro ⟨⟨next, hnext⟩, hrest⟩
      obtain ⟨r', hr'⟩ := (ih next).mpr hrest
      exact ⟨r', by rw [hnext]; exact hr'⟩

variable (source : ContactSource) (hrefFallback : List Char)

theorem parseCard_isSome (card : List Char) :
    (∃ contact, parseCard card source hrefFallback = some contact) ↔ ∀ line ∈ linesOf card, LineFits line := by
  unfold parseCard
  rw [readLines_eq, Option.bind_eq_bind, Option.bind_some, ← foldlM_isSome]
  constructor
  · rintro ⟨contact, h⟩
    obtain ⟨r, hr, -⟩ := Option.bind_eq_some_iff.mp h
    exact ⟨r, hr⟩
  · rintro ⟨r, hr⟩
    exact ⟨_, by rw [hr]; rfl⟩

/-- The lines of every card have escapes that fit. -/
def CardsFit (vcf : List Char) : Prop := ∀ card ∈ splitCards vcf, ∀ line ∈ linesOf card, LineFits line

theorem mapM_isSome {α β : Type} {f : α → Option β} {xs : List α} :
    (∃ ys, xs.mapM f = some ys) ↔ ∀ x ∈ xs, ∃ y, f x = some y := by
  induction xs with
  | nil => simp
  | cons x xs ih =>
    rw [List.mapM_cons, List.forall_mem_cons, ← ih]
    constructor
    · rintro ⟨ys, h⟩
      obtain ⟨y, hy, h⟩ := Option.bind_eq_some_iff.mp h
      obtain ⟨ys', hys', -⟩ := Option.bind_eq_some_iff.mp h
      exact ⟨⟨y, hy⟩, ys', hys'⟩
    · rintro ⟨⟨y, hy⟩, ys, hys⟩
      exact ⟨y :: ys, by rw [hy, hys]; rfl⟩

theorem parseContacts_isSome (vcf : List Char) :
    (∃ contacts, parseContacts vcf source hrefFallback = some contacts) ↔ CardsFit vcf := by
  unfold parseContacts CardsFit
  simp only [← parseCard_isSome source hrefFallback]
  rw [← mapM_isSome]
  constructor
  · rintro ⟨contacts, h⟩
    obtain ⟨cards, hcards, -⟩ := Option.map_eq_some_iff.mp h
    exact ⟨cards, hcards⟩
  · rintro ⟨cards, hcards⟩
    exact ⟨_, by rw [hcards]; rfl⟩

/-! ## Blocks -/

/-- A text that is one card, from its first line to its last. -/
def IsBlock (block : List Char) : Prop :=
  ∃ first body last, lines block = first :: (body ++ [last]) ∧ IsBegin first = true ∧ IsEnd last = true ∧
    ∀ line ∈ body, IsBegin line = false ∧ IsEnd line = false

/-- No line both begins a card and ends one. -/
theorem not_begin_of_end {line : List Char} (h : IsEnd line = true) : IsBegin line = false := by
  unfold IsEnd sameWord at h
  unfold IsBegin sameWord
  rw [of_decide_eq_true h]
  decide +kernel

theorem cardLoop_body {body : List (List Char)} (hbody : ∀ line ∈ body, IsBegin line = false ∧ IsEnd line = false)
    (rest : List (List Char)) (cards : List (List Char)) (card : List Char) :
    cardLoop (body ++ rest) cards (some card) =
      cardLoop rest cards (some (card ++ body.flatMap fun line => line ++ ['\n'])) := by
  induction body generalizing card with
  | nil => simp
  | cons line body ih =>
    rw [List.forall_mem_cons] at hbody
    rw [List.cons_append, cardLoop, hbody.1.1, hbody.1.2]
    simp only [Bool.false_eq_true, if_false, Option.map_some]
    rw [ih hbody.2]
    simp

/-- A block adds one card, which is its own. -/
theorem cardLoop_block {block : List Char} (h : IsBlock block) :
    ∃ card, splitCards block = [card] ∧
      ∀ rest cards, cardLoop (lines block ++ rest) cards none = cardLoop rest (cards ++ [card]) none := by
  obtain ⟨first, body, last, hlines, hfirst, hlast, hbody⟩ := h
  have hall : ∀ rest cards, cardLoop (lines block ++ rest) cards none =
      cardLoop rest (cards ++ [body.flatMap fun line => line ++ ['\n']]) none := by
    intro rest cards
    rw [hlines, List.cons_append, List.append_assoc, cardLoop, if_pos hfirst, cardLoop_body hbody,
      List.singleton_append, cardLoop, not_begin_of_end hlast, if_pos hlast]
    simp
  refine ⟨_, ?_, hall⟩
  have hself := hall [] []
  rw [List.append_nil] at hself
  rw [splitCards, hself]
  rfl

theorem cardLoop_blocks {blocks : List (List Char)} (h : ∀ block ∈ blocks, IsBlock block)
    (cards : List (List Char)) :
    cardLoop (blocks.flatMap lines) cards none = cards ++ blocks.flatMap splitCards := by
  induction blocks generalizing cards with
  | nil => rfl
  | cons block blocks ih =>
    rw [List.forall_mem_cons] at h
    obtain ⟨card, hcard, hall⟩ := cardLoop_block h.1
    rw [List.flatMap_cons, hall, ih h.2, List.flatMap_cons, hcard, List.append_assoc]

theorem splitCards_blocks {doc : List Char} {blocks : List (List Char)} (h : ∀ block ∈ blocks, IsBlock block)
    (hdoc : lines doc = blocks.flatMap lines) : splitCards doc = blocks.flatMap splitCards := by
  rw [splitCards, hdoc, cardLoop_blocks h, List.nil_append]

theorem parseContacts_blocks {doc : List Char} {blocks : List (List Char)}
    (h : ∀ block ∈ blocks, IsBlock block) (hdoc : lines doc = blocks.flatMap lines) :
    parseContacts doc source hrefFallback =
      (blocks.mapM fun block => parseContacts block source hrefFallback).map List.flatten := by
  unfold parseContacts
  rw [splitCards_blocks h hdoc]
  clear h hdoc
  induction blocks with
  | nil => rfl
  | cons block blocks ih =>
    rw [List.flatMap_cons, List.mapM_append, List.mapM_cons]
    cases hfirst : (splitCards block).mapM fun card => parseCard card source hrefFallback with
    | none => rfl
    | some first =>
      cases hrest : (blocks.flatMap splitCards).mapM fun card => parseCard card source hrefFallback with
      | none =>
        rw [hrest] at ih
        cases hblocks : blocks.mapM fun block => ((splitCards block).mapM fun card =>
            parseCard card source hrefFallback).map fun cards => cards.filterMap id with
        | none => rfl
        | some found =>
          rw [hblocks] at ih
          cases ih
      | some others =>
        rw [hrest] at ih
        cases hblocks : blocks.mapM fun block => ((splitCards block).mapM fun card =>
            parseCard card source hrefFallback).map fun cards => cards.filterMap id with
        | none =>
          rw [hblocks] at ih
          cases ih
        | some found =>
          rw [hblocks] at ih
          have hfound : others.filterMap id = found.flatten := Option.some.inj ih
          simpa using hfound

/-- Texts that end in a line feed have their own lines. -/
theorem lines_append (a b : List Char) : lines (a ++ '\n' :: b) = lines (a ++ ['\n']) ++ lines b := by
  induction a with
  | nil => rfl
  | cons c a ih =>
    have hhead : (a ++ '\n' :: b).head? = (a ++ ['\n']).head? := by
      cases a <;> rfl
    rw [List.cons_append, List.cons_append, lines, lines, hhead]
    split
    · rw [ih, List.cons_append]
    · split
      · exact ih
      · rw [ih]
        cases hfirst : lines (a ++ ['\n']) with
        | nil =>
          rw [FsTools.lines_eq_nil_iff] at hfirst
          simp at hfirst
        | cons line rest => rfl

theorem lines_flatten {blocks : List (List Char)} (h : ∀ block ∈ blocks, block.getLast? = some '\n') :
    lines blocks.flatten = blocks.flatMap lines := by
  induction blocks with
  | nil => rfl
  | cons block blocks ih =>
    rw [List.forall_mem_cons] at h
    obtain ⟨front, rfl⟩ := List.getLast?_eq_some_iff.mp h.1
    rw [List.flatten_cons, List.append_assoc, List.singleton_append, lines_append, ih h.2, List.flatMap_cons]

/-- An address book is read without a panic exactly when the escapes of its quoted-printable values fit; and
a document whose lines are those of blocks, such as blocks one after another, gives the contacts of each. -/
theorem parseContacts_safe (source : ContactSource) (hrefFallback : List Char) :
    (∀ vcf, (∃ contacts, parseContacts vcf source hrefFallback = some contacts) ↔ CardsFit vcf) ∧
      ∀ blocks : List (List Char), (∀ block ∈ blocks, IsBlock block) →
        (∀ doc, lines doc = blocks.flatMap lines →
          parseContacts doc source hrefFallback =
            (blocks.mapM fun block => parseContacts block source hrefFallback).map List.flatten) ∧
        ((∀ block ∈ blocks, block.getLast? = some '\n') → lines blocks.flatten = blocks.flatMap lines) :=
  ⟨parseContacts_isSome source hrefFallback, fun _ h =>
    ⟨fun _ hdoc => parseContacts_blocks source hrefFallback h hdoc, lines_flatten⟩⟩

/-- An escape that a character of three bytes cuts off. -/
theorem cut_escape :
    ¬ ∀ vcf, ∃ contacts, parseContacts vcf ⟨[], [], []⟩ [] = some contacts := by
  intro h
  have hfits := (parseContacts_isSome _ _ _).mp
    (h "BEGIN:VCARD\nNOTE;ENCODING=QUOTED-PRINTABLE:=€\nEND:VCARD\n".toList)
  have hcard : splitCards "BEGIN:VCARD\nNOTE;ENCODING=QUOTED-PRINTABLE:=€\nEND:VCARD\n".toList =
      ["NOTE;ENCODING=QUOTED-PRINTABLE:=€\n".toList] := by decide +kernel
  have hline : (linesOf "NOTE;ENCODING=QUOTED-PRINTABLE:=€\n".toList) =
      [⟨"NOTE".toList, [("ENCODING".toList, ["QUOTED-PRINTABLE".toList])], "=€".toList⟩] := by decide +kernel
  rw [CardsFit, hcard] at hfits
  have hfit := hfits _ (List.mem_singleton.mpr rfl) _ (hline ▸ List.mem_singleton.mpr rfl) (by decide +kernel)
    [] "€".toList (by decide +kernel) (by decide +kernel)
  exact absurd hfit (by decide +kernel)

end Haruspex.Vcard
