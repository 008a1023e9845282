import Haruspex.Redaction.Model
import Mathlib.Data.List.TakeWhile

/-! What becomes of each word of a text whose secrets are redacted. -/
namespace Haruspex.Redaction
open FsTools (replaceFirst)
open Marks (cut cut_some cut_earliest cut_eq_none_iff)
open Rust (isWhitespace byteLen)
open Shell (splitLast splitLast_eq_some splitLast_eq_none)
set_option autoImplicit false

/-! ## Words -/

/-- What stands before the bare word. -/
def front (word : List Char) : List Char := word.takeWhile isAround

def bare (word : List Char) : List Char := trimMatches isAround word

/-- What stands after it. -/
def back (word : List Char) : List Char := ((word.dropWhile isAround).reverse.takeWhile isAround).reverse

def IsScheme (word : List Char) : Prop := sameWord (bare word) "bearer" = true ∨ sameWord (bare word) "basic" = true

def IsToken (word : List Char) : Prop :=
  (tokenPrefixes.any fun p => decide (p.toList <+: bare word)) = true ∧ 16 ≤ byteLen (bare word)

/-- A key that names a secret, the last separator of the bare word, and the value. -/
structure KeyValue (word key : List Char) (separator : Char) (value : List Char) : Prop where
  parts : bare word = key ++ separator :: value
  separates : isSeparator separator = true
  last : ∀ c ∈ value, isSeparator c = false
  secret : namesASecret key = true

/-- A word that is told by its own key, if at all. -/
structure Ordinary (isValue : Bool) (word : List Char) : Prop where
  scheme : ¬ IsScheme word
  value : ¬ (isValue = true ∧ bare word ≠ [])
  token : ¬ IsToken word

/-- A value is redacted that stands earlier in its word, too. -/
def Repeats (isValue : Bool) (word : List Char) : Prop :=
  ∃ key separator value, Ordinary isValue word ∧ KeyValue word key separator value ∧ value ≠ [] ∧
    ¬ "//".toList <+: value ∧
    ∃ before after, word = before ++ value ++ after ∧ before.length < (front word ++ key ++ [separator]).length

/-- What a word becomes, and whether the next is a value. -/
inductive Becomes (isValue : Bool) (word : List Char) : List Char → Bool → Prop
  | scheme (h : IsScheme word) : Becomes isValue word word true
  | value (h : ¬ IsScheme word) (hvalue : isValue = true) (hbare : bare word ≠ []) :
    Becomes isValue word (front word ++ redacted ++ back word) false
  | token (h : ¬ IsScheme word) (hvalue : ¬ (isValue = true ∧ bare word ≠ [])) (htoken : IsToken word) :
    Becomes isValue word (front word ++ redacted ++ back word) false
  | keyed {key value : List Char} {separator : Char} (h : Ordinary isValue word)
    (hkey : KeyValue word key separator value) (hvalue : value ≠ []) (hpath : ¬ "//".toList <+: value) :
    Becomes isValue word (front word ++ key ++ [separator] ++ redacted ++ back word) false
  | named {key : List Char} {separator : Char} (h : Ordinary isValue word) (hkey : KeyValue word key separator []) :
    Becomes isValue word word true
  | other (h : Ordinary isValue word)
    (hkey : ∀ key separator value, KeyValue word key separator value → "//".toList <+: value) :
    Becomes isValue word word false

/-- The pieces of a text, all white space as it was and each word as it becomes; what becomes of a value that stands
earlier in its word is left open. -/
inductive InPlace : Bool → List (List Char) → List Char → Prop
  | nil (isValue : Bool) : InPlace isValue [] []
  | blank {isValue : Bool} {piece : List Char} {pieces : List (List Char)} {out : List Char} (h : wordOf piece = [])
    (hrest : InPlace isValue pieces out) : InPlace isValue (piece :: pieces) (piece ++ out)
  | word {isValue next : Bool} {piece : List Char} {pieces : List (List Char)} {word' out : List Char}
    (h : wordOf piece ≠ []) (hword : ¬ Repeats isValue (wordOf piece) → Becomes isValue (wordOf piece) word' next)
    (hnext : Repeats isValue (wordOf piece) → next = false) (hrest : InPlace next pieces out) :
    InPlace isValue (piece :: pieces) (word' ++ spaceOf piece ++ out)

/-! ## The first place -/

/-- A word is cut where no earlier place is. -/
theorem cut_eq {word text before after : List Char} (htext : text = before ++ word ++ after)
    (hfirst : ∀ before' after', text = before' ++ word ++ after' → before.length ≤ before'.length) :
    cut word text = some (before, after) := by
  cases hcut : cut word text with
  | none => exact absurd ⟨before, after, htext.symm⟩ (cut_eq_none_iff.mp hcut)
  | some parts =>
    obtain ⟨before', after'⟩ := parts
    have htext' := cut_some hcut
    have hle := hfirst before' after' htext'
    have hge : before'.length ≤ before.length := by
      by_contra hlt
      refine cut_earliest hcut (Nat.lt_of_not_le hlt) ?_
      rw [htext, List.append_assoc, List.drop_left]
      exact List.prefix_append word after
    have hsame : before ++ (word ++ after) = before' ++ (word ++ after') := by
      rw [← List.append_assoc, ← List.append_assoc, ← htext, ← htext']
    obtain ⟨rfl, hrest⟩ := List.append_inj hsame (Nat.le_antisymm hle hge)
    rw [List.append_cancel_left hrest]

theorem bare_back (word : List Char) : bare word ++ back word = word.dropWhile isAround := by
  rw [bare, back, trimMatches, trimEnd, trimStart, ← List.reverse_append, List.takeWhile_append_dropWhile,
    List.reverse_reverse]

theorem front_bare_back (word : List Char) : front word ++ bare word ++ back word = word := by
  rw [List.append_assoc, bare_back]
  exact List.takeWhile_append_dropWhile

theorem bare_head {word : List Char} {c : Char} {cs : List Char} (h : bare word = c :: cs) : isAround c = false := by
  have hwhole := bare_back word
  rw [h, List.cons_append] at hwhole
  have hhead := List.head?_dropWhile_not isAround word
  rw [← hwhole] at hhead
  exact hhead

/-- The bare word stands nowhere earlier. -/
theorem cut_bare {word : List Char} (h : bare word ≠ []) : cut (bare word) word = some (front word, back word) := by
  refine cut_eq (front_bare_back word).symm fun before after hword => ?_
  by_contra hlt
  rw [Nat.not_le] at hlt
  obtain ⟨c, cs, hbare⟩ := List.exists_cons_of_ne_nil h
  have hat : word[before.length]? = some c := by
    conv_lhs => rw [hword, hbare]
    simp
  have hfront : word[before.length]? = (front word)[before.length]? := by
    conv_lhs => rw [← front_bare_back word, List.append_assoc]
    exact List.getElem?_append_left hlt
  have hmem : c ∈ front word := List.mem_of_getElem? (hfront.symm.trans hat)
  have haround := List.mem_takeWhile_imp hmem
  rw [bare_head hbare] at haround
  cases haround

/-! ## What the loop does -/

theorem replaceFirst_bare {word : List Char} (h : bare word ≠ []) :
    replaceFirst (bare word) redacted word = front word ++ redacted ++ back word := by
  rw [replaceFirst, cut_bare h]

/-- A value that stands nowhere earlier is what is replaced. -/
theorem replaceFirst_value {isValue : Bool} {word key value : List Char} {separator : Char}
    (hordinary : Ordinary isValue word) (hkey : KeyValue word key separator value) (hvalue : value ≠ [])
    (hpath : ¬ "//".toList <+: value) (h : ¬ Repeats isValue word) :
    replaceFirst value redacted word = front word ++ key ++ [separator] ++ redacted ++ back word := by
  have hword : word = front word ++ key ++ [separator] ++ value ++ back word := by
    conv_lhs => rw [← front_bare_back word, hkey.parts]
    simp
  rw [replaceFirst, cut_eq hword fun before after htext => ?_]
  by_contra hlt
  exact h ⟨key, separator, value, hordinary, hkey, hvalue, hpath, before, after, htext, Nat.lt_of_not_le hlt⟩

theorem keyValue_of_split {word key value : List Char} {separator : Char}
    (h : splitLast isSeparator (bare word) = some (key, separator, value)) (hsecret : namesASecret key = true) :
    KeyValue word key separator value := by
  obtain ⟨hparts, hseparates, hlast⟩ := splitLast_eq_some h
  exact ⟨hparts, hseparates, hlast, hsecret⟩

theorem split_of_keyValue {word key value : List Char} {separator : Char} (h : KeyValue word key separator value) :
    splitLast isSeparator (bare word) = some (key, separator, value) := by
  cases hsplit : splitLast isSeparator (bare word) with
  | none =>
    have hno := splitLast_eq_none hsplit separator (by simp [h.parts])
    rw [h.separates] at hno
    cases hno
  | some parts =>
    obtain ⟨key', separator', value'⟩ := parts
    obtain ⟨hparts, hseparates, hlast⟩ := splitLast_eq_some hsplit
    have hsame : key ++ separator :: value = key' ++ separator' :: value' := h.parts.symm.trans hparts
    rcases List.append_eq_append_iff.mp hsame with ⟨more, hkey, hvalue⟩ | ⟨more, hkey, hvalue⟩
    · cases more with
      | nil =>
        rw [List.append_nil] at hkey
        rw [List.nil_append] at hvalue
        obtain ⟨rfl, rfl⟩ := List.cons.inj hvalue
        rw [hkey]
      | cons x more =>
        have hmem : separator' ∈ value := by
          rw [(List.cons.inj hvalue).2]
          simp
        have hno := h.last separator' hmem
        rw [hseparates] at hno
        cases hno
    · cases more with
      | nil =>
        rw [List.append_nil] at hkey
        rw [List.nil_append] at hvalue
        obtain ⟨rfl, rfl⟩ := List.cons.inj hvalue
        rw [hkey]
      | cons x more =>
        have hmem : separator ∈ value' := by
          rw [(List.cons.inj hvalue).2]
          simp
        have hno := hlast separator hmem
        rw [h.separates] at hno
        cases hno

theorem redactWord_becomes (isValue : Bool) (word : List Char) :
    (¬ Repeats isValue word → Becomes isValue word (redactWord word isValue).1 (redactWord word isValue).2) ∧
      (Repeats isValue word → (redactWord word isValue).2 = false) := by
  by_cases hscheme : IsScheme word
  · have hresult : redactWord word isValue = (word, true) := if_pos hscheme
    rw [hresult]
    refine ⟨fun _ => .scheme hscheme, fun hrepeats => ?_⟩
    obtain ⟨_, _, _, hordinary, -⟩ := hrepeats
    exact absurd hscheme hordinary.scheme
  by_cases hvalue : isValue = true ∧ bare word ≠ []
  · have hresult : redactWord word isValue = (replaceFirst (bare word) redacted word, false) :=
      (if_neg hscheme).trans (if_pos hvalue)
    rw [hresult, replaceFirst_bare hvalue.2]
    exact ⟨fun _ => .value hscheme hvalue.1 hvalue.2, fun _ => rfl⟩
  by_cases htoken : IsToken word
  · have hbare : bare word ≠ [] := by
      intro hnil
      have hlong := htoken.2
      rw [hnil] at hlong
      simp [byteLen] at hlong
    have hresult : redactWord word isValue = (replaceFirst (bare word) redacted word, false) :=
      (if_neg hscheme).trans ((if_neg hvalue).trans (if_pos htoken))
    rw [hresult, replaceFirst_bare hbare]
    exact ⟨fun _ => .token hscheme hvalue htoken, fun _ => rfl⟩
  have hordinary : Ordinary isValue word := ⟨hscheme, hvalue, htoken⟩
  rw [show redactWord word isValue = _ from (if_neg hscheme).trans ((if_neg hvalue).trans (if_neg htoken)),
    show trimMatches isAround word = bare word from rfl]
  cases hsplit : splitLast isSeparator (bare word) with
  | none =>
    refine ⟨fun _ => .other hordinary fun key separator value hkey => ?_, fun _ => rfl⟩
    rw [split_of_keyValue hkey] at hsplit
    cases hsplit
  | some parts =>
    obtain ⟨key, separator, value⟩ := parts
    dsimp only
    have hsame : ∀ key' separator' value', KeyValue word key' separator' value' →
        key' = key ∧ separator' = separator ∧ value' = value := by
      intro key' separator' value' hkey
      have heq := (split_of_keyValue hkey).symm.trans hsplit
      simpa using heq
    by_cases hsecret : namesASecret key = true
    · have hkey := keyValue_of_split hsplit hsecret
      rw [if_pos hsecret]
      by_cases hempty : value = []
      · subst hempty
        rw [if_pos rfl]
        refine ⟨fun _ => .named hordinary hkey, fun hrepeats => ?_⟩
        obtain ⟨key', separator', value', -, hkey', hne, -⟩ := hrepeats
        exact absurd (hsame key' separator' value' hkey').2.2 hne
      · rw [if_neg hempty]
        by_cases hpath : "//".toList <+: value
        · rw [if_neg (not_not_intro hpath)]
          refine ⟨fun _ => .other hordinary fun key' separator' value' hkey' => ?_, fun _ => rfl⟩
          rw [(hsame key' separator' value' hkey').2.2]
          exact hpath
        · rw [if_pos hpath]
          refine ⟨fun hrepeats => ?_, fun _ => rfl⟩
          rw [replaceFirst_value hordinary hkey hempty hpath hrepeats]
          exact .keyed hordinary hkey hempty hpath
    · rw [if_neg hsecret]
      refine ⟨fun _ => .other hordinary fun key' separator' value' hkey' => ?_, fun _ => rfl⟩
      have hsecret' := hkey'.secret
      rw [(hsame key' separator' value' hkey').1] at hsecret'
      exact absurd hsecret' hsecret

theorem redactPieces_inPlace (pieces : List (List Char)) (isValue : Bool) :
    InPlace isValue pieces (redactPieces pieces isValue) := by
  induction pieces generalizing isValue with
  | nil => exact .nil isValue
  | cons piece pieces ih =>
    rw [redactPieces]
    split
    · rename_i hblank
      exact .blank hblank (ih isValue)
    · rename_i hword
      obtain ⟨hbecomes, hnext⟩ := redactWord_becomes isValue (wordOf piece)
      exact .word hword hbecomes hnext (ih _)

end Haruspex.Redaction
