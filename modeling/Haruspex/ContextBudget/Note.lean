import Haruspex.ContextBudget.Indices
import Haruspex.Library.Occurrences

/-! The drop note in a text. Cutting a text, or stubbing it, does not make the note occur more
often than before. -/
namespace Haruspex.ContextBudget
open JavaScript Occurrences
set_option autoImplicit false

def noteChars : List Char :=
  ['[', 'O', 'l', 'd', 'e', 'r', ' ', 'm', 'e', 's', 's', 'a', 'g', 'e', 's', ' ', 'w', 'e', 'r',
   'e', ' ', 'd', 'r', 'o', 'p', 'p', 'e', 'd', ' ', 't', 'o', ' ', 'f', 'i', 't', ' ', 't', 'h',
   'e', ' ', 'c', 'o', 'n', 't', 'e', 'x', 't', ' ', 'w', 'i', 'n', 'd', 'o', 'w', '.', ']']

theorem toList_note : droppedTurnsNote.toList = noteChars := by decide +kernel

/-- How often the drop note occurs in a text. -/
def noteCount (text : String) : ℕ := occurrences noteChars text.toList

theorem noteChars_ne_nil : noteChars ≠ [] := by decide

theorem newline_not_mem : '\n' ∉ noteChars := by decide

theorem replacement_not_mem : replacement ∉ noteChars := by decide

theorem bom_not_mem : '\uFEFF' ∉ noteChars := by decide

theorem noteCount_note : noteCount droppedTurnsNote = 1 := by
  rw [noteCount, toList_note]
  decide

theorem noteCount_of_missing {text : String} {c : Char} (hc : c ∈ noteChars) (h : c ∉ text.toList) :
    noteCount text = 0 :=
  occurrences_of_not_mem hc h

theorem noteCount_eq_zero_iff (text : String) :
    noteCount text = 0 ↔ includes text droppedTurnsNote = false := by
  rw [noteCount, occurrences_eq_zero_iff noteChars_ne_nil, includes, toList_note,
    decide_eq_false_iff_not]

theorem noteCount_folded (text : String) :
    noteCount (text ++ "\n\n" ++ droppedTurnsNote) = noteCount text + 1 := by
  have hchars : (text ++ "\n\n" ++ droppedTurnsNote).toList =
      text.toList ++ '\n' :: ('\n' :: noteChars) := by
    simp [toList_note]
  have hnote : occurrences noteChars noteChars = 1 := by decide
  rw [noteCount, hchars, occurrences_sep noteChars_ne_nil newline_not_mem,
    occurrences_cons noteChars_ne_nil newline_not_mem, hnote]
  rfl

/-! ## Decoding part of a text -/

theorem occurrences_stripBom (cs : List Char) :
    occurrences noteChars (stripBom cs) = occurrences noteChars cs := by
  unfold stripBom
  split
  · exact (occurrences_cons noteChars_ne_nil bom_not_mem).symm
  · rfl

theorem front_split (n : ℕ) (cs : List Char) :
    ∃ pre, pre <+: cs ∧ utf8Bytes pre ≤ n ∧
      (front n cs = pre ∨ front n cs = pre ++ [replacement]) := by
  induction cs generalizing n with
  | nil => exact ⟨[], List.nil_prefix, Nat.zero_le n, Or.inl rfl⟩
  | cons c cs ih =>
    rw [front]
    by_cases hfit : c.utf8Size ≤ n
    · obtain ⟨pre, hpre, hbytes, hfront⟩ := ih (n - c.utf8Size)
      refine ⟨c :: pre, List.cons_prefix_cons.mpr ⟨rfl, hpre⟩, ?_, ?_⟩
      · rw [utf8Bytes_cons]
        omega
      · rw [if_pos hfit]
        rcases hfront with h | h
        · exact Or.inl (by rw [h])
        · exact Or.inr (by rw [h, List.cons_append])
    · refine ⟨[], List.nil_prefix, Nat.zero_le n, ?_⟩
      rw [if_neg hfit]
      split
      · exact Or.inl rfl
      · exact Or.inr rfl

theorem back_split (n : ℕ) (cs : List Char) (hn : n ≤ utf8Bytes cs) :
    ∃ pre suf j, cs = pre ++ suf ∧ n ≤ utf8Bytes pre ∧
      back n cs = List.replicate j replacement ++ suf := by
  induction cs generalizing n with
  | nil => exact ⟨[], [], 0, rfl, hn, rfl⟩
  | cons c cs ih =>
    rw [back]
    by_cases hzero : n = 0
    · rw [if_pos hzero]
      exact ⟨[], c :: cs, 0, rfl, hzero.le, rfl⟩
    · rw [if_neg hzero]
      by_cases hfit : c.utf8Size ≤ n
      · rw [utf8Bytes_cons] at hn
        obtain ⟨pre, suf, j, hsplit, hbytes, hback⟩ := ih (n - c.utf8Size) (by omega)
        refine ⟨c :: pre, suf, j, by rw [hsplit, List.cons_append], ?_, ?_⟩
        · rw [utf8Bytes_cons]
          omega
        · rw [if_pos hfit]
          exact hback
      · refine ⟨[c], cs, c.utf8Size - n, rfl, ?_, ?_⟩
        · rw [utf8Bytes_cons]
          omega
        · rw [if_neg hfit]

/-- The two parts a cut keeps are a prefix and a suffix that do not overlap, with nothing added that
the note has. -/
theorem decode_split {n m : ℕ} {cs : List Char} (hnm : n ≤ m) (hm : m ≤ utf8Bytes cs) :
    ∃ pre mid suf, cs = pre ++ mid ++ suf ∧ utf8Bytes pre ≤ n ∧ utf8Bytes suf + m ≤ utf8Bytes cs ∧
      occurrences noteChars (decodeFront n cs) = occurrences noteChars pre ∧
      occurrences noteChars (decodeBack m cs) = occurrences noteChars suf := by
  obtain ⟨pre, hpre, hprebytes, hfront⟩ := front_split n cs
  obtain ⟨lead, suf, j, hsplit, hlead, hback⟩ := back_split m cs hm
  have hfits : pre <+: lead := by
    rcases List.prefix_or_prefix_of_prefix hpre ⟨suf, hsplit.symm⟩ with h | h
    · exact h
    · -- The prefix has no more bytes than the part before the suffix, so it is no longer either.
      obtain ⟨more, rfl⟩ := h
      rw [utf8Bytes_append] at hprebytes
      have hlen := length_le_utf8Bytes more
      have hmore : more = [] := List.eq_nil_of_length_eq_zero (by omega)
      rw [hmore, List.append_nil]
  obtain ⟨mid, rfl⟩ := hfits
  refine ⟨pre, mid, suf, hsplit, hprebytes, ?_, ?_, ?_⟩
  · rw [hsplit, utf8Bytes_append]
    omega
  · rw [decodeFront, occurrences_stripBom]
    rcases hfront with h | h
    · rw [h]
    · rw [h, occurrences_concat noteChars_ne_nil replacement_not_mem]
  · rw [decodeBack, occurrences_stripBom, hback,
      occurrences_replicate noteChars_ne_nil replacement_not_mem]

theorem snapHead_start (window : ℕ) (head : List Char) : snapHead window head <+: head := by
  unfold snapHead
  split
  · exact List.prefix_refl head
  · rename_i c before heq
    split
    · have hsuffix : before <:+ head.reverse :=
        (List.suffix_cons c before).trans (heq ▸ List.dropWhile_suffix _)
      have hrev := List.reverse_prefix.mpr hsuffix
      rw [List.reverse_reverse] at hrev
      exact hrev
    · exact List.prefix_refl head

theorem snapTail_end (window : ℕ) (tail : List Char) : snapTail window tail <:+ tail := by
  unfold snapTail
  split
  · exact List.suffix_refl tail
  · rename_i c after heq
    split
    · exact (List.suffix_cons c after).trans (heq ▸ List.dropWhile_suffix _)
    · exact List.suffix_refl tail

/-! ## Cutting and stubbing a text -/

theorem not_mem_append {c : Char} {a b : String} (ha : c ∉ a.toList) (hb : c ∉ b.toList) :
    c ∉ (a ++ b).toList := by
  rw [String.toList_append, List.mem_append, not_or]
  exact ⟨ha, hb⟩

theorem not_mem_digits {c : Char} (hc : c.isDigit = false) (n : ℕ) : c ∉ Nat.toDigits 10 n := by
  intro h
  have hdigit := Nat.isDigit_of_mem_toDigits (by decide) (by decide) h
  rw [hc] at hdigit
  cases hdigit

theorem not_mem_toString (n : ℕ) : 'O' ∉ (toString n).toList := by
  rw [Nat.toString_eq_repr, Nat.toList_repr]
  exact not_mem_digits rfl n

theorem not_mem_toString_int (n : ℤ) : 'O' ∉ (toString n).toList := by
  cases n with
  | ofNat n => exact not_mem_toString n
  | negSucc n =>
    have hneg : toString (Int.negSucc n) = "-" ++ toString (n + 1) := rfl
    rw [hneg]
    exact not_mem_append (by decide) (not_mem_toString (n + 1))

theorem not_mem_toFixed (digits num den : ℕ) : 'O' ∉ (toFixed digits num den).toList := by
  unfold toFixed
  refine not_mem_append (not_mem_append (not_mem_toString _) (by decide)) ?_
  rw [String.toList_ofList, List.leftpad, List.mem_append, not_or]
  refine ⟨fun h => ?_, not_mem_digits rfl _⟩
  cases List.eq_of_mem_replicate h

/-- Nothing in a marker but its hint has the note's capital letter. -/
theorem not_mem_markerBytes (n : ℤ) : 'O' ∉ (markerBytes n).toList := by
  unfold markerBytes
  split
  · exact not_mem_append (not_mem_toString_int n) (by decide)
  · split
    · exact not_mem_append (not_mem_toFixed _ _ _) (by decide)
    · exact not_mem_append (not_mem_toFixed _ _ _) (by decide)

theorem not_mem_markerText (total : ℕ) (dropped : ℤ) {hint : String} (hhint : 'O' ∉ hint.toList) :
    'O' ∉ (markerText total dropped hint).toList := by
  unfold markerText
  refine not_mem_append (not_mem_append (not_mem_append (not_mem_append (not_mem_append
    (not_mem_append (by decide) ?_) (by decide)) ?_) (by decide)) hhint) (by decide)
  · exact not_mem_markerBytes _
  · exact not_mem_markerBytes _

theorem toolCutHint_chars : 'O' ∉ toolCutHint.toList :=
  not_mem_append (not_mem_append (by decide) (by decide)) (by decide)

theorem hint_chars (role : Role) : 'O' ∉ (cutHint role).toList := by
  cases role with
  | user => exact not_mem_append (by decide) (by decide)
  | assistant => exact not_mem_append (by decide) (by decide)
  | system => exact toolCutHint_chars
  | tool => exact toolCutHint_chars

theorem shellHint_chars : 'O' ∉ shellHint.toList :=
  not_mem_append (not_mem_append (not_mem_append (by decide) (by decide)) (by decide)) (by decide)

/-- A text put together as a cut text is holds the note as often as its two ends do. -/
theorem noteCount_joined (head tail : List Char) {marker : String} (hmarker : 'O' ∉ marker.toList) :
    '\n' ∈ (String.ofList head ++ "\n\n" ++ marker ++ "\n\n" ++ String.ofList tail).toList ∧
      noteCount (String.ofList head ++ "\n\n" ++ marker ++ "\n\n" ++ String.ofList tail) =
        occurrences noteChars head + occurrences noteChars tail := by
  have hchars : (String.ofList head ++ "\n\n" ++ marker ++ "\n\n" ++ String.ofList tail).toList =
      (head ++ '\n' :: ('\n' :: marker.toList ++ ['\n'])) ++ '\n' :: tail := by
    simp
  have hmiddle : 'O' ∉ '\n' :: marker.toList ++ ['\n'] := by
    simp [hmarker]
  constructor
  · rw [hchars]
    simp
  · rw [noteCount, hchars, occurrences_sep noteChars_ne_nil newline_not_mem,
      occurrences_sep noteChars_ne_nil newline_not_mem,
      occurrences_of_not_mem (by decide) hmiddle, Nat.add_zero]

/-- A cut text holds a prefix and a suffix of the text it was cut from, and no more of the note. -/
theorem noteCount_cut {text hint : String} {maxBytes : ℕ} (hhint : 'O' ∉ hint.toList)
    (hmax : maxBytes ≠ 0) (hlong : maxBytes < byteLength text) :
    '\n' ∈ (truncateCapturedOutput text maxBytes hint).text.toList ∧
      ∃ pre mid suf, text.toList = pre ++ mid ++ suf ∧ utf8Bytes pre < byteLength text ∧
        utf8Bytes suf < byteLength text ∧
        noteCount (truncateCapturedOutput text maxBytes hint).text ≤
          occurrences noteChars pre + occurrences noteChars suf := by
  have hbytes : byteLength text = utf8Bytes text.toList := rfl
  obtain ⟨dropped, hcut⟩ := truncate_long hint hmax hlong
  obtain ⟨pre, mid, suf, hsplit, hpre, hsuf, hfront, hback⟩ := decode_split
    (show maxBytes / 2 ≤ byteLength text - maxBytes / 2 by omega)
    (show byteLength text - maxBytes / 2 ≤ utf8Bytes text.toList by omega)
  have hjoined := noteCount_joined
    (snapHead (maxBytes / 2 / 4) (decodeFront (maxBytes / 2) text.toList))
    (snapTail (maxBytes / 2 / 4) (decodeBack (byteLength text - maxBytes / 2) text.toList))
    (not_mem_markerText (byteLength text) dropped hhint)
  have hhead := occurrences_prefix (w := noteChars)
    (snapHead_start (maxBytes / 2 / 4) (decodeFront (maxBytes / 2) text.toList))
  have htail := occurrences_suffix (w := noteChars)
    (snapTail_end (maxBytes / 2 / 4) (decodeBack (byteLength text - maxBytes / 2) text.toList))
  rw [hcut]
  refine ⟨hjoined.1, pre, mid, suf, hsplit, by omega, by omega, ?_⟩
  rw [hjoined.2]
  omega

/-- What a step may put in place of a text: it is not the note by itself, and holds the note no more
often than the text did, or not at all if the text was the note. -/
structure Shorter (text text' : String) : Prop where
  ne : text' ≠ droppedTurnsNote
  count : noteCount text' ≤ noteCount text
  note : text = droppedTurnsNote → noteCount text' = 0

theorem ne_note_of_newline {text : String} (h : '\n' ∈ text.toList) : text ≠ droppedTurnsNote := by
  intro e
  rw [e, toList_note] at h
  exact newline_not_mem h

theorem truncate_shorter {text hint : String} {maxBytes : ℕ} (hhint : 'O' ∉ hint.toList)
    (h : (truncateCapturedOutput text maxBytes hint).truncated = true) :
    Shorter text (truncateCapturedOutput text maxBytes hint).text := by
  have hmax : maxBytes ≠ 0 := by
    intro e
    rw [truncateCapturedOutput, if_pos e] at h
    cases h
  have hlong : maxBytes < byteLength text := by
    by_contra hle
    rw [truncateCapturedOutput, if_neg hmax, if_pos (by omega)] at h
    cases h
  obtain ⟨hnewline, pre, mid, suf, hsplit, hpre, hsuf, hcount⟩ := noteCount_cut hhint hmax hlong
  refine ⟨ne_note_of_newline hnewline, hcount.trans ?_, ?_⟩
  · have hfirst := occurrences_le_append (w := noteChars) pre mid
    have hboth := occurrences_le_append (w := noteChars) (pre ++ mid) suf
    rw [noteCount, hsplit]
    omega
  · intro e
    have hnote : byteLength text = noteChars.length := by
      rw [e]
      decide +kernel
    have hprelen := length_le_utf8Bytes pre
    have hsuflen := length_le_utf8Bytes suf
    rw [occurrences_of_short (show pre.length < noteChars.length by omega),
      occurrences_of_short (show suf.length < noteChars.length by omega)] at hcount
    omega

theorem shorter_of_zero (text : String) {text' : String} (h : noteCount text' = 0) :
    Shorter text text' := by
  refine ⟨?_, h.le.trans (Nat.zero_le _), fun _ => h⟩
  intro e
  rw [e, noteCount_note] at h
  cases h

theorem noteCount_removed : noteCount removed = 0 := by decide +kernel

theorem removed_shorter (text : String) : Shorter text removed := by
  exact shorter_of_zero text noteCount_removed

/-- The note does not reach into or out of what a stub names. -/
theorem noteCount_named {left what right : String} {l r : List Char}
    (hleft : left.toList = '[' :: 'T' :: l) (hl : '[' ∉ l) (hl' : 'O' ∉ l)
    (hright : right.toList = ' ' :: 'i' :: r) (hr : '[' ∉ r) :
    noteCount (left ++ what ++ right) = noteCount what := by
  have hout : ∀ u v, noteChars = u ++ v → u ≠ [] → v ≠ [] → u <:+ left.toList ++ what.toList →
      ¬ v <+: right.toList := by
    intro u v e _ hv _ hpre
    rw [hright] at hpre
    match v with
    | [] => exact hv rfl
    | [x] =>
      have hx : x = ' ' := (List.cons_prefix_cons.mp hpre).1
      have hlast := congrArg List.getLast? e
      rw [hx, List.getLast?_concat] at hlast
      revert hlast
      decide
    | x :: y :: v =>
      obtain ⟨hx, hpre⟩ := List.cons_prefix_cons.mp hpre
      have hy : y = 'i' := (List.cons_prefix_cons.mp hpre).1
      have hin : [' ', 'i'] <:+: noteChars := ⟨u, v, by rw [e, hx, hy]; simp⟩
      revert hin
      decide
  have hin : ∀ u v, noteChars = u ++ v → u ≠ [] → v ≠ [] → u <:+ left.toList →
      ¬ v <+: what.toList := by
    intro u v e hu _ hsuffix _
    match u with
    | [] => exact hu rfl
    | x :: u =>
      have hx : '[' = x := (List.cons.inj e).1
      rw [hleft, List.suffix_cons_iff] at hsuffix
      rcases hsuffix with h | h
      · have hu : u = 'T' :: l := (List.cons.inj h).2
        rw [hu] at e
        have hsecond := (List.cons.inj (List.cons.inj e).2).1
        revert hsecond
        decide
      · have hmem : x ∈ 'T' :: l := h.subset List.mem_cons_self
        rw [← hx, List.mem_cons] at hmem
        rcases hmem with h | h
        · revert h
          decide
        · exact hl h
  have hleftzero : 'O' ∉ left.toList := by
    rw [hleft]
    simp [hl']
  have hrightzero : '[' ∉ right.toList := by
    rw [hright]
    simp [hr]
  rw [noteCount, String.toList_append, String.toList_append, occurrences_append hout,
    occurrences_append hin, occurrences_of_not_mem (by decide) hleftzero,
    occurrences_of_not_mem (by decide) hrightzero, Nat.zero_add, Nat.add_zero]
  rfl

def stubRest : List Char :=
  "s no longer in scope — ".toList ++ "it was DROPPED TO SAVE SPACE, ".toList ++
    "which says nothing about what it contained. ".toList ++
    "Call the tool again if you still need it.]".toList

theorem toList_stubEnd : stubEnd.toList = ' ' :: 'i' :: stubRest := by decide +kernel

theorem not_mem_stubRest : '[' ∉ stubRest := by decide +kernel

theorem noteCount_stub (n : ℕ) (what : String) :
    noteCount ("[Trimmed: " ++ toString n ++ " chars dropped to free context. " ++ "The result of " ++
      what ++ stubEnd) = noteCount what := by
  refine noteCount_named (l := "rimmed: ".toList ++ Nat.toDigits 10 n ++
    " chars dropped to free context. ".toList ++ "The result of ".toList)
    ?_ ?_ ?_ toList_stubEnd not_mem_stubRest
  · simp
  · simp [not_mem_digits (show '['.isDigit = false from rfl) n]
  · simp [not_mem_digits (show 'O'.isDigit = false from rfl) n]

theorem stub_shorter {messages : List ChatMessage} {idx : ℕ} (text text' : String)
    (h : noteCount (describeToolCall messages idx) = 0) :
    Shorter text (stubFor messages idx text') := by
  refine shorter_of_zero text ?_
  unfold stubFor
  dsimp only
  rw [noteCount_stub]
  split
  · decide +kernel
  · exact h

end Haruspex.ContextBudget
