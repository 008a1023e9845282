import Haruspex.Redaction.Words

/-! Secrets are redacted in place: the known values first, then word by word. -/
namespace Haruspex.Redaction
open Marks (cut cut_some cut_eq_none_iff)
open Masking (Masked replaceAll)
open Rust (isWhitespace)
open Shell (splitLast splitLast_eq_some)
set_option autoImplicit false

/-! ## Pieces of a text -/

def IsWhole (word : List Char) : Prop := ∀ c ∈ word, isWhitespace c = false

theorem splitInclusive_append {word : List Char} (h : IsWhole word) {space : Char} (hspace : isWhitespace space = true)
    (rest : List Char) : splitInclusive (word ++ space :: rest) = (word ++ [space]) :: splitInclusive rest := by
  induction word with
  | nil => rw [List.nil_append, splitInclusive, if_pos hspace, List.nil_append]
  | cons c word ih =>
    have hc : ¬ isWhitespace c = true := by simp [h c List.mem_cons_self]
    rw [List.cons_append, splitInclusive, if_neg hc, ih fun d hd => h d (List.mem_cons_of_mem c hd)]
    rfl

theorem splitInclusive_whole {word : List Char} (h : IsWhole word) (hne : word ≠ []) : splitInclusive word = [word] := by
  induction word with
  | nil => exact absurd rfl hne
  | cons c word ih =>
    have hc : ¬ isWhitespace c = true := by simp [h c List.mem_cons_self]
    rw [splitInclusive, if_neg hc]
    cases word with
    | nil => rfl
    | cons d word => rw [ih (fun e he => h e (List.mem_cons_of_mem c he)) (by simp)]

theorem wordOf_append {word : List Char} (h : IsWhole word) {space : Char} (hspace : isWhitespace space = true) :
    wordOf (word ++ [space]) = word ∧ spaceOf (word ++ [space]) = [space] := by
  have hword : wordOf (word ++ [space]) = word := by
    rw [wordOf, trimEnd, List.reverse_append, List.reverse_singleton, List.singleton_append,
      List.dropWhile_cons_of_pos hspace, Rust.dropWhile_of_no_blank fun c hc => h c (List.mem_reverse.mp hc),
      List.reverse_reverse]
  exact ⟨hword, by rw [spaceOf, hword, List.drop_left]⟩

theorem wordOf_whole {word : List Char} (h : IsWhole word) : wordOf word = word ∧ spaceOf word = [] := by
  have hword : wordOf word = word := by
    rw [wordOf, trimEnd, Rust.dropWhile_of_no_blank fun c hc => h c (List.mem_reverse.mp hc), List.reverse_reverse]
  exact ⟨hword, by rw [spaceOf, hword, List.drop_length]⟩

/-- A text is a word, or a word, white space and the rest. -/
theorem pieces_induction {motive : List Char → Prop} (whole : ∀ word, IsWhole word → motive word)
    (piece : ∀ word space rest, IsWhole word → isWhitespace space = true → motive rest → motive (word ++ space :: rest))
    (text : List Char) : motive text := by
  induction hn : text.length using Nat.strong_induction_on generalizing text with
  | _ n ih =>
    have hword : IsWhole (text.takeWhile fun c => !isWhitespace c) := by
      intro c hc
      simpa using List.mem_takeWhile_imp hc
    have hsplit := List.takeWhile_append_dropWhile (p := fun c => !isWhitespace c) (l := text)
    cases hdrop : text.dropWhile fun c => !isWhitespace c with
    | nil =>
      rw [hdrop, List.append_nil] at hsplit
      rw [← hsplit]
      exact whole _ hword
    | cons space rest =>
      have hhead := List.head?_dropWhile_not (fun c => !isWhitespace c) text
      rw [hdrop] at hhead hsplit
      have hspace : isWhitespace space = true := by simpa using hhead
      rw [← hsplit]
      refine piece _ space rest hword hspace (ih rest.length ?_ rest rfl)
      rw [← hn, ← hsplit, List.length_append, List.length_cons]
      omega

/-! ## Known values without white space -/

theorem cut_append {word : List Char} {x : Char} (hx : x ∉ word) (hword : word ≠ []) (before after : List Char) :
    cut word (before ++ x :: after) =
      match cut word before with
      | some (a, b) => some (a, b ++ x :: after)
      | none => (cut word after).map fun parts => (before ++ x :: parts.1, parts.2) := by
  induction before with
  | nil =>
    have hhere : ¬ word <+: x :: after := fun h =>
      hword (List.prefix_nil.mp (Masking.prefix_of_prefix_append [] hx h))
    have hnil : cut word ([] : List Char) = none := if_neg hword
    rw [hnil, List.nil_append, cut, if_neg hhere]
    rfl
  | cons c before ih =>
    have hiff : word <+: c :: (before ++ x :: after) ↔ word <+: c :: before :=
      ⟨fun h => Masking.prefix_of_prefix_append (c :: before) hx h,
        fun h => h.trans (List.prefix_append (c :: before) (x :: after))⟩
    rw [List.cons_append, cut, cut]
    by_cases hhere : word <+: c :: before
    · have hlength := hhere.length_le
      rw [if_pos (hiff.mpr hhere), if_pos hhere, ← List.cons_append, List.drop_append_of_le_length hlength]
    · rw [if_neg fun h => hhere (hiff.mp h), if_neg hhere, ih]
      cases cut word before with
      | some parts => rfl
      | none => simp [Function.comp_def]

theorem cutUserinfo_append {space : Char} (hspace : isWhitespace space = true) (rest after : List Char) :
    cutUserinfo (rest ++ space :: after) = ((cutUserinfo rest).1, (cutUserinfo rest).2 ++ space :: after) := by
  have hstop : ¬ inAuthority space = true := by simp [inAuthority, hspace]
  have hfront : (rest ++ space :: after).takeWhile inAuthority = rest.takeWhile inAuthority := by
    induction rest with
    | nil => rw [List.nil_append, List.takeWhile_cons_of_neg hstop, List.takeWhile_nil]
    | cons c rest ih =>
      rw [List.cons_append]
      by_cases hc : inAuthority c = true
      · rw [List.takeWhile_cons_of_pos hc, List.takeWhile_cons_of_pos hc, ih]
      · rw [List.takeWhile_cons_of_neg hc, List.takeWhile_cons_of_neg hc]
  unfold cutUserinfo
  rw [hfront]
  split
  · rename_i user _ host hsplit
    split
    · obtain ⟨heq, -⟩ := splitLast_eq_some hsplit
      have hle : user.length ≤ rest.length := by
        have hlength := (List.takeWhile_prefix (l := rest) inAuthority).length_le
        rw [heq, List.length_append] at hlength
        omega
      rw [List.drop_append_of_le_length hle]
    · rfl
  · rfl

theorem redactUserinfo_append {space : Char} (hspace : isWhitespace space = true) (before after : List Char) :
    redactUserinfo (before ++ space :: after) = redactUserinfo before ++ space :: redactUserinfo after := by
  have hscheme : scheme ≠ [] := by decide +kernel
  have hx : space ∉ scheme := by
    intro hmem
    simp only [scheme, String.reduceToList, List.mem_cons, List.not_mem_nil, or_false] at hmem
    rcases hmem with rfl | rfl | rfl <;> cases hspace
  induction before using redactUserinfo.induct with
  | case1 before hcut =>
    have happend := cut_append hx hscheme before after
    rw [hcut] at happend
    rw [redactUserinfo_none hcut]
    cases hafter : cut scheme after with
    | none =>
      rw [hafter] at happend
      rw [redactUserinfo_none happend, redactUserinfo_none hafter]
    | some parts =>
      obtain ⟨a, b⟩ := parts
      rw [hafter] at happend
      rw [redactUserinfo_some happend, redactUserinfo_some hafter]
      simp
  | case2 before front rest hcut ih =>
    have happend := cut_append hx hscheme before after
    rw [hcut] at happend
    rw [redactUserinfo_some happend, redactUserinfo_some hcut, cutUserinfo_append hspace]
    dsimp only
    rw [ih]
    simp

section Whole

variable {known : List (List Char)} (hknown : ∀ k ∈ known, IsWhole k)
include hknown

theorem prepared_append {space : Char} (hspace : isWhitespace space = true) (before after : List Char) :
    prepared (before ++ space :: after) known = prepared before known ++ space :: prepared after known := by
  have hreplace : ∀ (ks : List (List Char)) (before after : List Char), (∀ k ∈ ks, IsWhole k ∧ k ≠ []) →
      ks.foldl (fun out k => replaceAll k redacted out) (before ++ space :: after) =
        ks.foldl (fun out k => replaceAll k redacted out) before ++
          space :: ks.foldl (fun out k => replaceAll k redacted out) after := by
    intro ks
    induction ks with
    | nil => exact fun _ _ _ => rfl
    | cons k ks ih =>
      intro before after hks
      rw [List.forall_mem_cons] at hks
      have hx : space ∉ k := by
        intro hmem
        rw [hks.1.1 space hmem] at hspace
        cases hspace
      rw [List.foldl_cons, Masking.replaceAll_append hx hks.1.2, ih _ _ hks.2]
      rfl
  have hlong : ∀ k ∈ known.filter (fun k => 6 ≤ k.length), IsWhole k ∧ k ≠ [] := by
    intro k hk
    obtain ⟨hmem, hlength⟩ := List.mem_filter.mp hk
    refine ⟨hknown k hmem, ?_⟩
    rintro rfl
    simp at hlength
  rw [prepared, replaceKnown, hreplace _ _ _ hlong, redactUserinfo_append hspace]
  rfl

end Whole

theorem masked_whole {a b : List Char} (h : Masked redacted a b) (ha : IsWhole a) : IsWhole b := by
  have hmark : IsWhole redacted := by
    have hall : redacted.all (fun c => !isWhitespace c) = true := by decide +kernel
    intro c hc
    simpa using List.all_eq_true.mp hall c hc
  induction h with
  | nil => exact ha
  | keep c _ ih =>
    rw [IsWhole, List.forall_mem_cons] at ha ⊢
    exact ⟨ha.1, ih ha.2⟩
  | hide part _ ih =>
    rw [IsWhole, List.forall_mem_append] at ha ⊢
    exact ⟨hmark, ih ha.2⟩

theorem masked_ne_nil {a b : List Char} (h : Masked redacted a b) (ha : a ≠ []) : b ≠ [] := by
  have hmark : redacted ≠ [] := by decide +kernel
  cases h with
  | nil => exact absurd rfl ha
  | keep c _ => simp
  | hide part _ => exact List.append_ne_nil_of_left_ne_nil hmark _

theorem prepared_whole {word : List Char} (h : IsWhole word) (known : List (List Char)) :
    IsWhole (prepared word known) ∧ (word ≠ [] → prepared word known ≠ []) := by
  have hfold : ∀ (ks : List (List Char)) (text : List Char), IsWhole text →
      IsWhole (ks.foldl (fun out k => replaceAll k redacted out) text) ∧
        (text ≠ [] → ks.foldl (fun out k => replaceAll k redacted out) text ≠ []) := by
    intro ks
    induction ks with
    | nil => exact fun text htext => ⟨htext, id⟩
    | cons k ks ih =>
      intro text htext
      have hmasked := Masking.replaceAll_masked k redacted text
      obtain ⟨hwhole, hne⟩ := ih _ (masked_whole hmasked htext)
      exact ⟨hwhole, fun h => hne (masked_ne_nil hmasked h)⟩
  obtain ⟨hwhole, hne⟩ := hfold (known.filter fun k => 6 ≤ k.length) word h
  have hmasked := redactUserinfo_masked (replaceKnown word known)
  exact ⟨masked_whole hmasked hwhole, fun h => masked_ne_nil hmasked (hne h)⟩

/-- Known values without white space are replaced in each word apart. -/
theorem splitInclusive_prepared {known : List (List Char)} (hknown : ∀ k ∈ known, IsWhole k) (text : List Char) :
    splitInclusive (prepared text known) =
      (splitInclusive text).map fun piece => prepared (wordOf piece) known ++ spaceOf piece := by
  induction text using pieces_induction with
  | whole word h =>
    obtain ⟨hwhole, hne⟩ := prepared_whole h known
    by_cases hempty : word = []
    · subst hempty
      have hnil : prepared [] known = [] := by
        have hmasked : ∀ ks : List (List Char), ks.foldl (fun out k => replaceAll k redacted out) [] = [] := by
          intro ks
          induction ks with
          | nil => rfl
          | cons k ks ih => exact ih
        have hcut : cut scheme ([] : List Char) = none := by decide +kernel
        rw [prepared, replaceKnown, hmasked, redactUserinfo_none hcut]
      rw [hnil]
      rfl
    · obtain ⟨hword, hspace⟩ := wordOf_whole h
      rw [splitInclusive_whole hwhole (hne hempty), splitInclusive_whole h hempty, List.map_singleton, hword, hspace,
        List.append_nil]
  | piece word space rest h hspace ih =>
    obtain ⟨hword, hsep⟩ := wordOf_append h hspace
    rw [prepared_append hknown hspace, splitInclusive_append (prepared_whole h known).1 hspace,
      splitInclusive_append h hspace, List.map_cons, hword, hsep, ih]

/-! ## Words without secrets -/

/-- A user and a password stand before a host. -/
def HasUserinfo (word : List Char) : Prop :=
  ∃ before user after, word = before ++ scheme ++ user ++ '@' :: after ∧ ':' ∈ user ∧ ∀ c ∈ user, inAuthority c = true

theorem redactUserinfo_plain {word : List Char} (h : ¬ HasUserinfo word) : redactUserinfo word = word := by
  induction word using redactUserinfo.induct with
  | case1 word hcut => exact redactUserinfo_none hcut
  | case2 word before rest hcut ih =>
    have hword := cut_some hcut
    have hnone : cutUserinfo rest = ([], rest) := by
      unfold cutUserinfo
      split
      · rename_i user at' host hsplit
        split
        · rename_i hcolon
          obtain ⟨hfront, hat, -⟩ := splitLast_eq_some hsplit
          obtain rfl : at' = '@' := of_decide_eq_true hat
          obtain ⟨more, hmore⟩ := List.takeWhile_prefix (l := rest) inAuthority
          refine absurd ⟨before, user, host ++ more, ?_, hcolon, fun c hc => ?_⟩ h
          · rw [hword, ← hmore, hfront]
            simp
          · exact List.mem_takeWhile_imp (hfront ▸ List.mem_append_left _ hc)
        · rfl
      · rfl
    have hrest : ¬ HasUserinfo rest := by
      rintro ⟨before', user, after, rfl, huser⟩
      refine h ⟨before ++ scheme ++ before', user, after, ?_, huser⟩
      rw [hword]
      simp
    rw [hnone] at ih
    rw [redactUserinfo_some hcut, hnone, ih hrest, hword]
    simp

theorem prepared_plain {word : List Char} {known : List (List Char)} (hknown : ∀ k ∈ known, ¬ k <:+: word)
    (h : ¬ HasUserinfo word) : prepared word known = word := by
  have hfold : ∀ ks : List (List Char), (∀ k ∈ ks, ¬ k <:+: word) →
      ks.foldl (fun out k => replaceAll k redacted out) word = word := by
    intro ks
    induction ks with
    | nil => exact fun _ => rfl
    | cons k ks ih =>
      intro hks
      rw [List.forall_mem_cons] at hks
      rw [List.foldl_cons, Masking.replaceAll_of_not_infix hks.1, ih hks.2]
  rw [prepared, replaceKnown, hfold _ fun k hk => hknown k (List.mem_filter.mp hk).1, redactUserinfo_plain h]

/-! ## The whole -/

/-- No known value is left, and of the text without them each word is redacted in place. Known values without white
space are replaced in each word apart, and a word with none of them and no userinfo is as it was. -/
theorem redactSecrets_in_place (text : List Char) (known : List (List Char)) :
    (∀ k ∈ known, 6 ≤ k.length → '[' ∉ k → ']' ∉ k → ¬ k <:+: redacted → ¬ k <:+: redactSecrets text known) ∧
      InPlace false (splitInclusive (prepared text known)) (redactSecrets text known) ∧
      ((∀ k ∈ known, IsWhole k) → splitInclusive (prepared text known) =
        (splitInclusive text).map fun piece => prepared (wordOf piece) known ++ spaceOf piece) ∧
      ∀ word, (∀ k ∈ known, ¬ k <:+: word) → ¬ HasUserinfo word → prepared word known = word := by
  refine ⟨fun k hk hlong hfirst hlast hmarker => ?_, redactPieces_inPlace _ _,
    fun hknown => splitInclusive_prepared hknown text, fun word hknown h => prepared_plain hknown h⟩
  have hne : k ≠ [] := by
    rintro rfl
    simp at hlong
  exact not_infix_redactSecrets hfirst hlast hne hmarker hk hlong

/-- A word that looks like a token of its own is redacted whole, whatever stands before it. -/
theorem redactSecrets_token :
    redactSecrets "key ghp_0123456789ab".toList [] = "key [redacted]".toList := by
  have hcut : cut scheme "key ghp_0123456789ab".toList = none := by decide +kernel
  rw [redactSecrets, prepared, replaceKnown, List.filter_nil, List.foldl_nil, redactUserinfo_none hcut]
  decide +kernel

end Haruspex.Redaction
