import Haruspex.FsTools.Fuzzy
import Haruspex.Library.Masking
import Haruspex.Shell.Capture

/-! Secrets in text that leaves a process (`text_util.rs`). Texts are lists of characters. -/
namespace Haruspex.Redaction
open FsTools (replaceFirst)
open Marks (cut cut_some)
open Masking (replaceAll)
open Rust (isWhitespace byteLen)
open Shell (splitLast)
set_option autoImplicit false

/-- `REDACTED` -/
def redacted : List Char := "[redacted]".toList

/-- `SECRET_KEY_WORDS` -/
def secretKeyWords : List String :=
  ["token", "secret", "password", "passwd", "apikey", "api_key", "api-key", "authorization", "auth", "credential",
    "cookie"]

/-- `TOKEN_PREFIXES` -/
def tokenPrefixes : List String :=
  ["ghp_", "gho_", "ghu_", "ghs_", "ghr_", "github_pat_", "sk-", "sk_live_", "xoxb-", "xoxp-", "xoxa-", "xoxs-",
    "glpat-", "AKIA", "hf_", "ya29.", "hsx_"]

/-! ## Strings -/

/-- `trim_start_matches` -/
def trimStart (p : Char → Bool) (cs : List Char) : List Char := cs.dropWhile p

/-- `trim_end_matches` -/
def trimEnd (p : Char → Bool) (cs : List Char) : List Char := (cs.reverse.dropWhile p).reverse

/-- `trim_matches` -/
def trimMatches (p : Char → Bool) (cs : List Char) : List Char := trimEnd p (trimStart p cs)

/-- `to_ascii_lowercase` -/
def lower (cs : List Char) : List Char := cs.map Char.toLower

/-- `eq_ignore_ascii_case` -/
def sameWord (cs : List Char) (word : String) : Bool := lower cs = lower word.toList

/-- `split_inclusive(char::is_whitespace)` -/
def splitInclusive : List Char → List (List Char)
  | [] => []
  | c :: cs =>
    if isWhitespace c = true then [c] :: splitInclusive cs
    else
      match splitInclusive cs with
      | [] => [[c]]
      | piece :: pieces => (c :: piece) :: pieces

/-! ## URLs -/

/-- What a URL's user, password and host can be made of. -/
def inAuthority (c : Char) : Bool := !(isWhitespace c || c = '/' || c = '"' || c = '\'')

/-- What stands for the user and the password at the start of a text, and what comes after them. -/
def cutUserinfo (rest : List Char) : List Char × List Char :=
  match splitLast (· = '@') (rest.takeWhile inAuthority) with
  | some (user, _, _) => if ':' ∈ user then (redacted, rest.drop user.length) else ([], rest)
  | none => ([], rest)

theorem cutUserinfo_length (rest : List Char) : (cutUserinfo rest).2.length ≤ rest.length := by
  unfold cutUserinfo
  split
  · split
    · rw [List.length_drop]
      omega
    · exact Nat.le_refl _
  · exact Nat.le_refl _

def scheme : List Char := "://".toList

/-- `redact_userinfo`: the loop over what is left after each `://`. -/
def redactUserinfo (text : List Char) : List Char :=
  match _hcut : cut scheme text with
  | none => text
  | some (before, rest) => before ++ scheme ++ (cutUserinfo rest).1 ++ redactUserinfo (cutUserinfo rest).2
termination_by text.length
decreasing_by
  have hlength := congrArg List.length (cut_some _hcut)
  have hrest := cutUserinfo_length rest
  have hscheme : scheme.length = 3 := by decide +kernel
  simp only [List.length_append, hscheme] at hlength
  omega

/-! ## Words -/

def isQuote (c : Char) : Bool := "\"'`".toList.contains c

/-- Quotes, brackets and what else may stand around a word. -/
def isAround (c : Char) : Bool := "\"'`,;()[]\x7b\x7d<>".toList.contains c

def isTailStart (c : Char) : Bool := "?&./\"'".toList.contains c

/-- `names_a_secret` -/
def namesASecret (key : List Char) : Bool :=
  let key := lower (trimMatches isQuote key)
  let tail := ((key.splitOnP isTailStart).getLast?).getD key
  secretKeyWords.any fun w => decide (w.toList <:+: tail)

def isSeparator (c : Char) : Bool := c = '=' || c = ':'

/-- `redact_word`, and whether the next word is a value. -/
def redactWord (word : List Char) (isValue : Bool) : List Char × Bool :=
  let bare := trimMatches isAround word
  if sameWord bare "bearer" ∨ sameWord bare "basic" then (word, true)
  else if isValue = true ∧ bare ≠ [] then (replaceFirst bare redacted word, false)
  else if (tokenPrefixes.any fun p => decide (p.toList <+: bare)) = true ∧ 16 ≤ byteLen bare then
    (replaceFirst bare redacted word, false)
  else
    match splitLast isSeparator bare with
    | some (key, _, value) =>
      if namesASecret key = true then
        if value = [] then (word, true)
        else if ¬ "//".toList <+: value then (replaceFirst value redacted word, false)
        else (word, false)
      else (word, false)
    | none => (word, false)

/-! ## Texts -/

/-- The word of a piece. -/
def wordOf (piece : List Char) : List Char := trimEnd isWhitespace piece

/-- What is left of a piece after its word. -/
def spaceOf (piece : List Char) : List Char := piece.drop (wordOf piece).length

/-- The loop over the pieces. -/
def redactPieces : List (List Char) → Bool → List Char
  | [], _ => []
  | piece :: pieces, redactNext =>
    if wordOf piece = [] then piece ++ redactPieces pieces redactNext
    else
      (redactWord (wordOf piece) redactNext).1 ++ spaceOf piece ++
        redactPieces pieces (redactWord (wordOf piece) redactNext).2

/-- Each known value, one after another. -/
def replaceKnown (text : List Char) (known : List (List Char)) : List Char :=
  (known.filter fun k => 6 ≤ k.length).foldl (fun out k => replaceAll k redacted out) text

/-- The text whose words are looked at. -/
def prepared (text : List Char) (known : List (List Char)) : List Char := redactUserinfo (replaceKnown text known)

/-- `redact_secrets` -/
def redactSecrets (text : List Char) (known : List (List Char)) : List Char :=
  redactPieces (splitInclusive (prepared text known)) false

end Haruspex.Redaction

/-! No known value is left in a text whose secrets are redacted. -/
namespace Haruspex.Redaction
open FsTools (replaceFirst)
open Marks (cut cut_some)
open Masking (Masked replaceAll)
open Rust (isWhitespace)
open Shell (splitLast splitLast_eq_some)
set_option autoImplicit false

/-! ## Each step puts the marker in the place of parts -/

theorem cutUserinfo_masked (rest : List Char) :
    ∃ hidden, rest = hidden ++ (cutUserinfo rest).2 ∧ Masked redacted hidden (cutUserinfo rest).1 := by
  unfold cutUserinfo
  split
  · rename_i user _ host hsplit
    split
    · obtain ⟨hfront, -, -⟩ := splitLast_eq_some hsplit
      have htake : rest.take user.length = user := by
        obtain ⟨more, hmore⟩ := List.takeWhile_prefix (l := rest) inAuthority
        rw [← hmore, hfront, List.append_assoc, List.take_left]
      have hpart := Masked.hide user (@Masked.nil _ redacted)
      rw [List.append_nil, List.append_nil] at hpart
      have hrest := List.take_append_drop user.length rest
      rw [htake] at hrest
      exact ⟨user, hrest.symm, hpart⟩
    · exact ⟨[], rfl, .nil⟩
  · exact ⟨[], rfl, .nil⟩

theorem redactUserinfo_none {text : List Char} (h : cut scheme text = none) : redactUserinfo text = text := by
  rw [redactUserinfo]
  split
  · rfl
  · rename_i hsome
    rw [h] at hsome
    cases hsome

theorem redactUserinfo_some {text before rest : List Char} (h : cut scheme text = some (before, rest)) :
    redactUserinfo text = before ++ scheme ++ (cutUserinfo rest).1 ++ redactUserinfo (cutUserinfo rest).2 := by
  rw [redactUserinfo]
  split
  · rename_i hnone
    rw [h] at hnone
    cases hnone
  · rename_i hsome
    rw [h] at hsome
    cases hsome
    rfl

theorem redactUserinfo_masked (text : List Char) : Masked redacted text (redactUserinfo text) := by
  induction text using redactUserinfo.induct with
  | case1 text hcut =>
    rw [redactUserinfo_none hcut]
    exact Masked.refl text
  | case2 text before rest hcut ih =>
    obtain ⟨hidden, hrest, hmasked⟩ := cutUserinfo_masked rest
    have hwhole := ((@Masked.refl _ redacted (before ++ scheme)).append hmasked).append ih
    rw [redactUserinfo_some hcut, cut_some hcut]
    conv at hwhole =>
      arg 2
      rw [List.append_assoc, ← hrest]
    exact hwhole

theorem replaceFirst_masked (word text : List Char) : Masked redacted text (replaceFirst word redacted text) := by
  unfold replaceFirst
  split
  · rename_i before after hcut
    rw [cut_some hcut]
    exact Masked.single before word after
  · exact Masked.refl text

theorem redactWord_masked (word : List Char) (isValue : Bool) :
    Masked redacted word (redactWord word isValue).1 := by
  unfold redactWord
  dsimp only
  split
  · exact Masked.refl word
  · split
    · exact replaceFirst_masked _ word
    · split
      · exact replaceFirst_masked _ word
      · split
        · split
          · split
            · exact Masked.refl word
            · split
              · exact replaceFirst_masked _ word
              · exact Masked.refl word
          · exact Masked.refl word
        · exact Masked.refl word

/-! ## Pieces -/

theorem wordOf_append_spaceOf (piece : List Char) : wordOf piece ++ spaceOf piece = piece := by
  have hfront : wordOf piece <+: piece := by
    rw [wordOf, trimEnd, ← List.reverse_suffix, List.reverse_reverse]
    exact List.dropWhile_suffix _
  obtain ⟨space, hspace⟩ := hfront
  have hdrop : spaceOf piece = space :=
    (congrArg (List.drop (wordOf piece).length) hspace.symm).trans List.drop_left
  rw [hdrop, hspace]

theorem flatten_splitInclusive (text : List Char) : (splitInclusive text).flatten = text := by
  induction text with
  | nil => rfl
  | cons c text ih =>
    unfold splitInclusive
    split
    · rw [List.flatten_cons, ih]
      rfl
    · split
      · rename_i hnil
        rw [hnil] at ih
        rw [← ih]
        rfl
      · rename_i piece pieces hpieces
        rw [hpieces, List.flatten_cons] at ih
        rw [List.flatten_cons, List.cons_append, ih]

theorem redactPieces_masked (pieces : List (List Char)) (redactNext : Bool) :
    Masked redacted pieces.flatten (redactPieces pieces redactNext) := by
  induction pieces generalizing redactNext with
  | nil => exact .nil
  | cons piece pieces ih =>
    rw [redactPieces, List.flatten_cons]
    split
    · exact (Masked.refl piece).append (ih redactNext)
    · have hword := (redactWord_masked (wordOf piece) redactNext).append (Masked.refl (spaceOf piece))
      rw [wordOf_append_spaceOf] at hword
      exact hword.append (ih _)

/-! ## Known values -/

section Known

variable {k : List Char} (hfirst : '[' ∉ k) (hlast : ']' ∉ k) (hne : k ≠ []) (hmarker : ¬ k <:+: redacted)
include hfirst hlast hne hmarker

theorem not_infix_of_masked {a b : List Char} (h : Masked redacted a b) (hno : ¬ k <:+: a) : ¬ k <:+: b := by
  have hhead : redacted.head? = some '[' := by decide +kernel
  have hend : redacted.getLast? = some ']' := by decide +kernel
  exact Masking.not_infix_of_masked hhead hend hfirst hlast hne hmarker h hno

theorem not_infix_foldl {ks : List (List Char)} {text : List Char} (h : k ∈ ks ∨ ¬ k <:+: text) :
    ¬ k <:+: ks.foldl (fun out k => replaceAll k redacted out) text := by
  have hhead : redacted.head? = some '[' := by decide +kernel
  have hend : redacted.getLast? = some ']' := by decide +kernel
  induction ks generalizing text with
  | nil => exact h.resolve_left List.not_mem_nil
  | cons k' ks ih =>
    rw [List.foldl_cons]
    refine ih ?_
    by_cases hk : k ∈ ks
    · exact .inl hk
    · right
      rw [List.mem_cons] at h
      rcases h with (rfl | hmem) | hno
      · exact Masking.not_infix_replaceAll hhead hend hfirst hlast hne hmarker text
      · exact absurd hmem hk
      · exact not_infix_of_masked hfirst hlast hne hmarker (Masking.replaceAll_masked k' redacted text) hno

/-- A known value of six characters or more is nowhere in the text that leaves. -/
theorem not_infix_redactSecrets {text : List Char} {known : List (List Char)} (hk : k ∈ known) (hlong : 6 ≤ k.length) :
    ¬ k <:+: redactSecrets text known := by
  have hmem : k ∈ known.filter fun k => 6 ≤ k.length := List.mem_filter.mpr ⟨hk, decide_eq_true hlong⟩
  have hknown : ¬ k <:+: replaceKnown text known := not_infix_foldl hfirst hlast hne hmarker (.inl hmem)
  have hprepared : ¬ k <:+: prepared text known :=
    not_infix_of_masked hfirst hlast hne hmarker (redactUserinfo_masked _) hknown
  have hpieces := redactPieces_masked (splitInclusive (prepared text known)) false
  rw [flatten_splitInclusive] at hpieces
  exact not_infix_of_masked hfirst hlast hne hmarker hpieces hprepared

end Known

end Haruspex.Redaction
